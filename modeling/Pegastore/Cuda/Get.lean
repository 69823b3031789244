import Pegastore.Cuda.Backend

/-!
# A whole `get`

`World.get` is a whole `get`, when no other operation runs and no copy fails: one or two steps of
the system (`steps_of_get`). A copy out of store memory, or out of a published region that no
segment of the destination touches, delivers a range of what the replica holds (`copy_eq`).
-/

set_option autoImplicit false
set_option relaxedAutoImplicit false

namespace Pegastore.Local

open Outcome ByteMemory

/-- A whole `get`, when no other operation runs and the engines do not fail. -/
def World.get (inner : Inner) (mem : ByteSpace) (w : World) (key : Key) (op : OpGet) :
    Exec (Result RpGet × ByteSpace) :=
  match op.validate with
  | .error e => .ok (.error e, mem)
  | .ok (dstDevice, dstLen) =>
    if w.poisoned then .error .unwrapNone
    else do
      let selected ← w.state.select inner key op.slot.toNat dstDevice
      match selected with
      | .error e => .ok (.error e, mem)
      | .ok (replica, slotLen) =>
        .ok (w.copyOut inner mem ⟨op, dstLen, replica, slotLen⟩ .done).swap

/-- No byte of the replica is in user memory that the copy writes. -/
def ReplicaData.Apart (data : ReplicaData) (dst : List Segment) : Prop :=
  match data with
  | .pinned _ => True
  | .external segs _ _ => ∀ s ∈ segs, ∀ d ∈ dst, s.Disjoint d

section Get

variable {inner : Inner} {mem : ByteSpace} {w : World} {data : ReplicaData} {dst : List Segment}

theorem readAll_segs (w : World) (mem : ByteSpace) (data : ReplicaData) :
    readAll (w.viewOf data mem) data.segs = w.content mem data := by
  cases data with
  | pinned buf => exact List.append_nil _
  | external segs regionId origins => rfl

/-- A copy moves a range of the content. -/
theorem copy_eq (hapart : data.Apart dst) {total : ℕ} (htotal : total ≤ totalLen dst) (off : ℕ) :
    w.copy data off dst total mem =
      (writeAll mem dst (((w.content mem data).drop off).take total),
        if (((w.content mem data).drop off).take total).length < total then .error ranPast
        else .ok ()) := by
  have hview : ∀ m m' : ByteSpace, (∀ a, ¬ (∃ d ∈ dst, d.Covers a) → m' a = m a) →
      ∀ a, (∃ s ∈ data.segs, s.Covers a) → w.viewOf data m' a = w.viewOf data m a := by
    intro m m' hsame a hsource
    cases data with
    | pinned buf => rfl
    | external segs regionId origins =>
      obtain ⟨s, hs, ha⟩ := hsource
      exact hsame a fun ⟨d, hd, hcovers⟩ ↦ hapart s hs d hd a ha hcovers
  have hloop := zipLoop_eq hview (skipSegs data.segs off) dst total mem
    (fun s hs a ha ↦ covers_skipSegs hs ha) (fun d hd a ha ↦ ⟨d, hd, ha⟩) htotal
  have hcontent : readAll (w.viewOf data mem) (skipSegs data.segs off) =
      (w.content mem data).drop off := by rw [readAll_skipSegs, readAll_segs]
  unfold World.copy zipCopy
  rw [hloop, ← length_readAll (w.viewOf data mem), hcontent]
  refine Prod.ext rfl (if_congr ?_ rfl rfl)
  rw [List.length_take]
  omega

/-- What a `get` that returns `Ok` has copied, from a replica that it does not write to. -/
theorem copyOut_ok {mem' : ByteSpace} {rd : Reader} {outcome : CopyOutcome} {source : RpGet}
    (hapart : rd.replica.data.Apart (segsOf rd.op.dst))
    (hlen : rd.dstLen ≤ totalLen (segsOf rd.op.dst))
    (h : w.copyOut inner mem rd outcome = (mem', .ok source)) :
    let bytes := ((w.content mem rd.replica.data).drop rd.op.srcOffset).take rd.dstLen
    bytes.length = rd.dstLen ∧ mem' = writeAll mem (segsOf rd.op.dst) bytes := by
  unfold World.copyOut at h
  split at h
  · cases h
  · cases outcome with
    | failed e moved => cases h
    | done =>
      dsimp only at h
      rw [copy_eq hapart hlen] at h
      split_ifs at h with hshort
      · cases h
      · cases h
        exact ⟨le_antisymm (List.length_take_le _ _) (not_lt.mp hshort), rfl⟩

/-- A `get` that begins is a step of the system. -/
theorem exists_step_beginGet (inner : Inner) (bytes : UInt16 → ℕ) (n : Node) (key : Key)
    (op : OpGet) : ∃ n', n'.world = (n.world.beginGet inner key op).1 ∧ n'.mem = n.mem ∧
      (backend inner bytes).step n ⟨.beginGet key op, (n.world.beginGet inner key op).2⟩ n' :=
  ⟨⟨_, n.mem, n.ghost.record n.world _ n.mem (.beginGet key op)⟩, rfl, rfl, rfl⟩

/-- A `get` alone is one or two steps of the system. -/
theorem steps_of_get (inner : Inner) (bytes : UInt16 → ℕ) {n : Node} {key : Key} {op : OpGet}
    {r : Result RpGet} {mem' : ByteSpace} (hget : n.world.get inner n.mem key op = .ok (r, mem')) :
    ∃ history n', (backend inner bytes).Steps n history n' ∧ n'.mem = mem' ∧
      history.getLast?.map Event.reply = some (.get r) := by
  obtain ⟨n₁, hworld, hmem, hstep⟩ := exists_step_beginGet inner bytes n key op
  have hone := Transition.System.Steps.snoc Transition.System.Steps.nil hstep
  unfold World.get at hget
  unfold World.beginGet at hworld hone
  cases hvalid : op.validate with
  | error e =>
    rw [hvalid] at hget hone
    cases hget
    exact ⟨_, n₁, hone, hmem, rfl⟩
  | ok pair =>
    obtain ⟨dstDevice, dstLen⟩ := pair
    rw [hvalid] at hget hone hworld
    dsimp only at hget hone hworld
    split_ifs at hget with hlock
    obtain ⟨selected, hselect, hget⟩ := bind_eq_ok.mp hget
    rw [hselect, World.section_ok (Bool.eq_false_of_not_eq_true hlock)] at hone hworld
    cases selected with
    | error e =>
      cases hget
      exact ⟨_, n₁, hone, hmem, rfl⟩
    | ok found =>
      obtain ⟨replica, slotLen⟩ := found
      let rd : Reader := ⟨op, dstLen, replica, slotLen⟩
      have hswap : (n.world.copyOut inner n.mem rd .done).swap = (r, mem') := Except.ok.inj hget
      have hreader : n₁.world.readers[n.world.readers.length]? = some rd := by
        rw [hworld]
        exact List.getElem?_concat_length
      have hcopy : n₁.world.copyOut inner n₁.mem rd .done = (mem', r) := by
        have hsame : n₁.world.copyOut inner n₁.mem rd .done =
            n.world.copyOut inner n.mem rd .done := by
          rw [hworld, hmem]
          rfl
        rw [hsame]
        exact Prod.ext (congrArg Prod.snd hswap) (congrArg Prod.fst hswap)
      let w₂ := (n₁.world.finishGet inner n₁.mem n.world.readers.length rd .done).1
      have hexec : n₁.world.exec inner n₁.mem (.finishGet n.world.readers.length .done) =
          some (w₂, mem', .get r) := by
        rw [World.exec, hreader]
        unfold w₂ World.finishGet
        rw [Option.map_some, hcopy]
      let n₂ : Node := ⟨w₂, mem', n₁.ghost.record n₁.world w₂ n₁.mem
        (.finishGet n.world.readers.length .done)⟩
      have hlast : (backend inner bytes).step n₁
          ⟨.finishGet n.world.readers.length .done, .get r⟩ n₂ := congrArg (Option.map _) hexec
      refine ⟨_, n₂, hone.snoc hlast, rfl, ?_⟩
      rw [List.getLast?_concat]
      rfl

end Get

end Pegastore.Local
