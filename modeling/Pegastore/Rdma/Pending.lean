import Pegastore.Rdma.Handshake

/-!
# The pending queues

What the loops over the pending queues do when the sessions of a queue have distinct numbers
(`Distinct`). Removing by number leaves the sessions with other numbers (`without`), and popping the
numbers of sessions that are there gives exactly these sessions, row by row.
-/

set_option autoImplicit false
set_option relaxedAutoImplicit false

namespace Pegastore.Rdma

open Outcome Buckets

/-- The sessions of each queue have distinct numbers. -/
def Distinct (nics : List PerNicState) : Prop :=
  ∀ pending ∈ nics, (pending.map RcSession.qpNum).Nodup

/-- The queues without the sessions that are named by NIC and number. -/
def without (named : List (ℕ × ℕ)) (nics : List PerNicState) : List PerNicState :=
  nics.mapIdx fun i pending ↦ pending.filter fun session ↦ (i, session.qpNum) ∉ named

@[simp] theorem length_without (named : List (ℕ × ℕ)) (nics : List PerNicState) :
    (without named nics).length = nics.length := by
  simp [without]

theorem getElem?_without (named : List (ℕ × ℕ)) (nics : List PerNicState) (i : ℕ) :
    (without named nics)[i]? =
      nics[i]?.map fun pending ↦ pending.filter fun session ↦ (i, session.qpNum) ∉ named := by
  simp [without]

theorem without_nil (nics : List PerNicState) : without [] nics = nics := by
  refine List.ext_getElem? fun i ↦ ?_
  rw [getElem?_without]
  simp

theorem without_without (first second : List (ℕ × ℕ)) (nics : List PerNicState) :
    without second (without first nics) = without (first ++ second) nics := by
  refine List.ext_getElem? fun i ↦ ?_
  rw [getElem?_without, getElem?_without, getElem?_without, Option.map_map]
  congr 1
  funext pending
  simp [List.filter_filter, Bool.and_comm]

theorem Distinct.without {nics : List PerNicState} (h : Distinct nics) (named : List (ℕ × ℕ)) :
    Distinct (without named nics) := by
  intro pending hpending
  obtain ⟨i, hi⟩ := List.mem_iff_getElem?.mp hpending
  rw [getElem?_without] at hi
  obtain ⟨before, hbefore, rfl⟩ := Option.map_eq_some_iff.mp hi
  exact (h before (List.mem_of_getElem? hbefore)).sublist (List.filter_sublist.map _)

/-- With distinct numbers, removing the first session of a number removes all. -/
theorem eraseP_qpNum {pending : PerNicState} (h : (pending.map RcSession.qpNum).Nodup) (qpn : ℕ) :
    (pending.eraseP fun session ↦ session.qpNum = qpn) =
      pending.filter fun session ↦ session.qpNum ≠ qpn := by
  induction pending with
  | nil => rfl
  | cons session rest ih =>
    rw [List.map_cons, List.nodup_cons] at h
    by_cases heq : session.qpNum = qpn
    · -- no other session has the number
      have hrest : ∀ other ∈ rest, other.qpNum ≠ qpn := by
        intro other hother hsame
        exact h.1 (List.mem_map.mpr ⟨other, hother, hsame.trans heq.symm⟩)
      rw [List.eraseP_cons_of_pos (by simpa using heq),
        List.filter_cons_of_neg (by simpa using heq),
        List.filter_eq_self.mpr (by simpa using hrest)]
    · rw [List.eraseP_cons_of_neg (by simpa using heq),
        List.filter_cons_of_pos (by simpa using heq), ih h.2]

theorem removePendingByQpn_snd {pending : PerNicState}
    (h : (pending.map RcSession.qpNum).Nodup) (qpn : ℕ) :
    (PerNicState.removePendingByQpn pending qpn).2 =
      pending.filter fun session ↦ session.qpNum ≠ qpn := by
  rw [← eraseP_qpNum h, List.eraseP_eq_eraseIdx]
  unfold PerNicState.removePendingByQpn
  cases pending.findIdx? fun session ↦ session.qpNum = qpn <;> rfl

/-- A session that waits is found by its number. -/
theorem removePendingByQpn_fst {pending : PerNicState}
    (h : (pending.map RcSession.qpNum).Nodup) {session : RcSession} (hmem : session ∈ pending) :
    (PerNicState.removePendingByQpn pending session.qpNum).1 = some session := by
  unfold PerNicState.removePendingByQpn
  cases hpos : pending.findIdx? fun other ↦ other.qpNum = session.qpNum with
  | none => simpa using List.findIdx?_eq_none_iff.mp hpos session hmem
  | some pos =>
    obtain ⟨hlt, hsame, _⟩ := List.findIdx?_eq_some_iff_getElem.mp hpos
    have hfound : pending[pos] = session :=
      List.inj_on_of_nodup_map h (List.getElem_mem hlt) hmem (of_decide_eq_true hsame)
    change pending[pos]? = some session
    rw [List.getElem?_eq_getElem hlt, hfound]

theorem removeAt_eq {nics : List PerNicState} (h : Distinct nics) {nicIdx : ℕ}
    {pending : PerNicState} (hpending : nics[nicIdx]? = some pending) (qpn : ℕ) :
    removeAt nics nicIdx qpn =
      .ok ((PerNicState.removePendingByQpn pending qpn).1, without [(nicIdx, qpn)] nics) := by
  unfold removeAt
  rw [index_eq_ok.mpr hpending, ok_bind]
  have hset : nics.set nicIdx (PerNicState.removePendingByQpn pending qpn).2 =
      without [(nicIdx, qpn)] nics := by
    refine List.ext_getElem? fun i ↦ ?_
    rw [getElem?_without, removePendingByQpn_snd (h pending (List.mem_of_getElem? hpending)),
      List.getElem?_set']
    by_cases heq : nicIdx = i
    · subst heq
      simp [hpending]
    · simp [heq, Ne.symm heq]
  rw [← hset]
  rfl

theorem removeAll_eq (named : List (ℕ × ℕ)) : ∀ {nics : List PerNicState}, Distinct nics →
    (∀ slot ∈ named, slot.1 < nics.length) →
      removeAll named nics = .ok (without named nics) := by
  induction named with
  | nil =>
    intro nics _ _
    rw [without_nil]
    rfl
  | cons slot rest ih =>
    intro nics h hlt
    have hslot := List.getElem?_eq_getElem (hlt slot List.mem_cons_self)
    unfold removeAll
    rw [removeAt_eq h hslot, ok_bind]
    dsimp only
    rw [ih (h.without _) fun other hother ↦ ?_, without_without]
    · rfl
    · rw [length_without]
      exact hlt other (List.mem_cons_of_mem _ hother)

/-- The slots of sessions by number. -/
def numbered (items : List (ℕ × RcSession)) : List (ℕ × ℕ) :=
  items.map fun item ↦ (item.1, item.2.qpNum)

/-- Sessions that wait, with distinct numbers, are popped. -/
theorem popAll_eq {n : ℕ} (items : List (ℕ × RcSession)) : ∀ {nics : List PerNicState}
    (done : List (ℕ × RcSession)), Distinct nics → nics.length = n →
    (∀ item ∈ items, ∃ pending, nics[item.1]? = some pending ∧ item.2 ∈ pending) →
    (numbered items).Nodup →
      popAll (numbered items) nics (bucketsOf n done) =
        .ok (without (numbered items) nics, .ok (bucketsOf n (done ++ items))) := by
  induction items with
  | nil =>
    intro nics done _ _ _ _
    rw [List.append_nil]
    exact congrArg (fun queues ↦ Except.ok (queues, Except.ok (bucketsOf n done)))
      (without_nil nics).symm
  | cons item rest ih =>
    intro nics done h hlength hmem hnodup
    obtain ⟨pending, hpending, hin⟩ := hmem item List.mem_cons_self
    obtain ⟨hnew, hrest⟩ := List.nodup_cons.mp hnodup
    have hlt : item.1 < n := hlength ▸ (List.getElem?_eq_some_iff.mp hpending).1
    change popAll ((item.1, item.2.qpNum) :: numbered rest) nics (bucketsOf n done) = _
    unfold popAll
    rw [removeAt_eq h hpending, ok_bind,
      removePendingByQpn_fst (h pending (List.mem_of_getElem? hpending)) hin]
    dsimp only
    rw [pushAt_bucketsOf hlt, ok_bind, ih _ (h.without _) (by simpa using hlength) ?_ hrest,
      without_without, List.append_assoc]
    · rfl
    · -- the sessions that follow have other numbers, so they are still there
      intro other hother
      obtain ⟨queue, hqueue, hwaits⟩ := hmem other (List.mem_cons_of_mem _ hother)
      have hne : (other.1, other.2.qpNum) ≠ (item.1, item.2.qpNum) :=
        fun heq ↦ hnew (List.mem_map.mpr ⟨other, hother, heq⟩)
      rw [getElem?_without, hqueue]
      exact ⟨_, rfl, List.mem_filter.mpr ⟨hwaits, decide_eq_true fun hin ↦
        hne (List.mem_singleton.mp hin)⟩⟩

/-- What the metadata of a handshake names. -/
theorem qpSlots_localNics (h : Handshake) : qpSlots h.localNics = numbered (slots h.sessions) := by
  unfold qpSlots Handshake.localNics numbered
  rw [List.map_map, ← slots_map]
  congr 2
  funext sessions
  simp [RcSession.qpNum]

theorem mem_slots_sessions (h : Handshake) {i : ℕ} {session : RcSession} :
    (i, session) ∈ slots h.sessions ↔ session ∈ h.sessionsOn i := by
  unfold Handshake.sessionsOn
  rw [← valuesOf_slots]
  simp [valuesOf]

theorem mem_qpSlots (h : Handshake) {i qpn : ℕ} :
    (i, qpn) ∈ qpSlots h.localNics ↔ qpn ∈ (h.sessionsOn i).map RcSession.qpNum := by
  rw [qpSlots_localNics, numbered, List.mem_map, List.mem_map]
  constructor
  · rintro ⟨⟨j, session⟩, hmem, heq⟩
    cases heq
    exact ⟨session, (mem_slots_sessions h).mp hmem, rfl⟩
  · rintro ⟨session, hmem, rfl⟩
    exact ⟨(i, session), (mem_slots_sessions h).mpr hmem, rfl⟩

end Pegastore.Rdma
