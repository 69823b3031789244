import Pegastore.Rdma.Session

/-!
# The worker of a session

A session is shared: `holders` counts the references outside the worker, direct ones and those
through a connection or a snapshot of its sessions. The worker has a weak reference and makes it a
strong one for the time of a batch. The session owns the sender of the command channel, so the
channel is closed when the last reference goes: by a holder (`invalidate_connection` is one) or by
the worker itself after a batch. Between the last reference and the end of the sender lies the
destruction of the session, which another thread may see half done.

`SessionLife.work` is the next step of the loop of `spawn_worker`. `execute_batch` is taken to
return; its result is a label of the step. What was accepted, executed, answered and dropped without
an answer is recorded only in the model.

`Accounted` says where every accepted command is: answered, held by the worker, or queued. A command
waits for at most `SessionLife.rank` steps of the worker (`rank_step`), whatever happens in between,
so every accepted command is answered exactly once (`accepted_answered_once`).
-/

set_option autoImplicit false
set_option relaxedAutoImplicit false

namespace Pegastore.Rdma

open Outcome Transition

/-- A command of the channel. The number exists only in the model and tells submissions apart. -/
structure SessionCommand where
  number : ℕ
  ops : List RdmaOp
  kind : TransferOp
deriving DecidableEq

/-- Where the worker is. -/
inductive WorkerPhase
  /-- At `recv`. -/
  | receiving
  /-- A command was received and the session is not upgraded yet. -/
  | received (command : SessionCommand)
  /-- In `execute_batch`, with a reference to the session. -/
  | executing (command : SessionCommand)
  /-- About to send the result of a batch. -/
  | replying (command : SessionCommand) (result : TransferResult ℕ)
  /-- About to drop its reference. -/
  | releasing
  /-- It dropped the last reference and destroys the session. -/
  | destroying
  /-- In `reply_session_invalidated`. -/
  | invalidating (command : SessionCommand)
  /-- At `try_recv`, the session being gone. -/
  | draining
  /-- Out of the loop, with the receiver. -/
  | leaving
  | stopped
deriving DecidableEq

/-- The worker has a reference to the session. -/
def WorkerPhase.holds : WorkerPhase → Bool
  | .executing _ => true
  | .replying _ _ => true
  | .releasing => true
  | _ => false

/-- The session, its references, its channel and its worker. -/
structure SessionLife where
  holders : ℕ
  /-- The sender is not dropped yet. -/
  sender : Bool
  /-- A thread other than the worker destroys the session. -/
  closing : Bool
  phase : WorkerPhase
  queue : List SessionCommand
  accepted : List SessionCommand
  executed : List (SessionCommand × TransferResult ℕ)
  replies : List (SessionCommand × TransferResult ℕ)
  dropped : List SessionCommand

/-- What can happen: a holder clones or drops its reference, another thread finishes the destruction
of the session, a holder submits a batch, or the worker takes a step. -/
inductive Move
  | clone
  | drop
  | destroy
  | submit (ops : List RdmaOp) (kind : TransferOp)
  | work (result : TransferResult ℕ)

def Move.isWork : Move → Bool
  | .work _ => true
  | _ => false

namespace SessionLife

/-- The strong count of the session. -/
def strong (s : SessionLife) : ℕ := s.holders + if s.phase.holds then 1 else 0

/-- The reply of `reply_session_invalidated`. -/
def invalidated : TransferResult ℕ :=
  .error (.backend "session invalidated before batch execution")

/-- `transfer_batch_async`: the state, and whether the command was accepted. -/
def transferBatchAsync (s : SessionLife) (ops : List RdmaOp) (kind : TransferOp) :
    SessionLife × TransferResult Unit :=
  let command : SessionCommand := ⟨s.accepted.length, ops, kind⟩
  if s.phase = .stopped then (s, .error (.backend "session worker channel disconnected"))
  else ({ s with queue := s.queue ++ [command], accepted := s.accepted ++ [command] }, .ok ())

/-- The next step of the worker, if it is not blocked. -/
def work (s : SessionLife) (result : TransferResult ℕ) : Option SessionLife :=
  match s.phase with
  | .receiving =>
    match s.queue with
    | command :: rest => some { s with phase := .received command, queue := rest }
    | [] => if s.sender then none else some { s with phase := .leaving }
  | .received command =>
    if s.strong = 0 then some { s with phase := .invalidating command }
    else some { s with phase := .executing command }
  | .executing command =>
    some { s with phase := .replying command result, executed := s.executed ++ [(command, result)] }
  | .replying command reply =>
    some { s with phase := .releasing, replies := s.replies ++ [(command, reply)] }
  | .releasing => some { s with phase := if s.holders = 0 then .destroying else .receiving }
  | .destroying => some { s with phase := .receiving, sender := false }
  | .invalidating command =>
    some { s with phase := .draining, replies := s.replies ++ [(command, invalidated)] }
  | .draining =>
    match s.queue with
    | command :: rest => some { s with phase := .invalidating command, queue := rest }
    | [] => some { s with phase := .leaving }
  | .leaving => some { s with phase := .stopped, queue := [], dropped := s.dropped ++ s.queue }
  | .stopped => none

/-- One move. -/
def exec (s : SessionLife) : Move → Option SessionLife
  | .clone => if s.holders = 0 then none else some { s with holders := s.holders + 1 }
  | .drop =>
    if s.holders = 0 then none
    else
      let dropped := { s with holders := s.holders - 1 }
      some { dropped with closing := dropped.strong = 0 }
  | .destroy => if s.closing then some { s with sender := false, closing := false } else none
  | .submit ops kind => if s.holders = 0 then none else some (s.transferBatchAsync ops kind).1
  | .work result => s.work result

/-- The session is created with one reference and its worker. -/
def create : SessionLife := ⟨1, true, false, .receiving, [], [], [], [], []⟩

end SessionLife

/-- Every interleaving of submissions, references and worker steps. -/
def sessionLife : System SessionLife Move where
  start := SessionLife.create
  step := fun s move s' ↦ s.exec move = some s'

/-! ### Where every command is -/

/-- The command in the hands of the worker. -/
def WorkerPhase.command : WorkerPhase → Option SessionCommand
  | .received command => some command
  | .executing command => some command
  | .replying command _ => some command
  | .invalidating command => some command
  | _ => none

/-- The worker has found the session gone. -/
def WorkerPhase.over : WorkerPhase → Bool
  | .invalidating _ => true
  | .draining => true
  | .leaving => true
  | .stopped => true
  | _ => false

/-- The worker is out of its loop. -/
def WorkerPhase.ended : WorkerPhase → Bool
  | .leaving => true
  | .stopped => true
  | _ => false

/-- Every accepted command is answered, held by the worker or queued; an answer is the result of the
command's own batch or says that the session is gone; and once the session is gone, nobody can
submit any more. -/
structure Accounted (s : SessionLife) : Prop where
  numbers : s.accepted.map SessionCommand.number = List.range s.accepted.length
  places : (s.replies.map Prod.fst ++ s.phase.command.toList ++ s.queue).Perm s.accepted
  dropped : s.dropped = []
  answers : ∀ a ∈ s.replies, a.2 = SessionLife.invalidated ∨ a ∈ s.executed
  replying : ∀ command result, s.phase = .replying command result → (command, result) ∈ s.executed
  gone : s.sender = false ∨ s.closing = true ∨ s.phase.over = true ∨ s.phase = .destroying →
    s.strong = 0
  ended : s.phase.ended = true → s.queue = []

namespace Accounted

variable {s s' : SessionLife}

theorem start : Accounted SessionLife.create where
  numbers := rfl
  places := List.Perm.refl _
  dropped := rfl
  answers := nofun
  replying := nofun
  gone := by
    rintro (h | h | h | h) <;> cases h
  ended := nofun

theorem strong_pos (s : SessionLife) (hholders : s.holders ≠ 0) : s.strong ≠ 0 := by
  unfold SessionLife.strong
  omega

/-- A reference is made or dropped by a holder: the session is not gone. -/
theorem references (h : Accounted s) (hholders : s.holders ≠ 0) (holders : ℕ) (closing : Bool)
    (hclosing : closing = true → { s with holders := holders }.strong = 0) :
    Accounted { s with holders := holders, closing := closing } where
  numbers := h.numbers
  places := h.places
  dropped := h.dropped
  answers := h.answers
  replying := h.replying
  gone := by
    rintro (hgone | hgone | hgone | hgone)
    · exact absurd (h.gone (Or.inl hgone)) (strong_pos s hholders)
    · exact hclosing hgone
    · exact absurd (h.gone (Or.inr (Or.inr (Or.inl hgone)))) (strong_pos s hholders)
    · exact absurd (h.gone (Or.inr (Or.inr (Or.inr hgone)))) (strong_pos s hholders)
  ended := h.ended

theorem destroy (h : Accounted s) (hstrong : s.strong = 0) :
    Accounted { s with sender := false, closing := false } :=
  ⟨h.numbers, h.places, h.dropped, h.answers, h.replying, fun _ ↦ hstrong, h.ended⟩

/-- A holder's submission is accepted: the worker is in its loop. -/
theorem transferBatchAsync_eq (h : Accounted s) (hholders : s.holders ≠ 0) (ops : List RdmaOp)
    (kind : TransferOp) : s.transferBatchAsync ops kind =
      ({ s with
        queue := s.queue ++ [⟨s.accepted.length, ops, kind⟩]
        accepted := s.accepted ++ [⟨s.accepted.length, ops, kind⟩] }, .ok ()) := by
  unfold SessionLife.transferBatchAsync
  refine if_neg fun hstopped ↦ strong_pos s hholders (h.gone (Or.inr (Or.inr (Or.inl ?_))))
  rw [hstopped]
  rfl

theorem submit (h : Accounted s) (hholders : s.holders ≠ 0) (ops : List RdmaOp)
    (kind : TransferOp) : Accounted (s.transferBatchAsync ops kind).1 := by
  rw [h.transferBatchAsync_eq hholders]
  refine ⟨?_, ?_, h.dropped, h.answers, h.replying, h.gone, fun hended ↦ ?_⟩
  · rw [List.map_append, h.numbers, List.length_append, List.length_singleton, List.range_succ]
    rfl
  · rw [← List.append_assoc]
    exact h.places.append_right _
  · refine absurd (h.gone (Or.inr (Or.inr (Or.inl ?_)))) (strong_pos s hholders)
    revert hended
    cases s.phase <;> simp [WorkerPhase.ended, WorkerPhase.over]

/-- The worker takes the first command of the queue. -/
theorem take (h : Accounted s) {command : SessionCommand} {rest : List SessionCommand}
    {phase : WorkerPhase} (hqueue : s.queue = command :: rest) (hidle : s.phase.command = none)
    (hphase : phase.command = some command) (hheld : phase.holds = s.phase.holds)
    (hover : phase.over = s.phase.over) (hnot : ∀ r, phase ≠ .replying command r)
    (hdestroying : phase ≠ .destroying) (hended : phase.ended = false) :
    Accounted { s with phase := phase, queue := rest } where
  numbers := h.numbers
  places := by
    have hplaces := h.places
    rw [hidle, hqueue] at hplaces
    dsimp only
    rw [hphase]
    simpa using hplaces
  dropped := h.dropped
  answers := h.answers
  replying := by
    intro other r hreplying
    dsimp only at hreplying
    rw [hreplying] at hphase
    cases hphase
    exact absurd hreplying (hnot r)
  gone := by
    dsimp only [SessionLife.strong]
    rw [hover, hheld]
    rintro (hgone | hgone | hgone | hgone)
    · exact h.gone (Or.inl hgone)
    · exact h.gone (Or.inr (Or.inl hgone))
    · exact h.gone (Or.inr (Or.inr (Or.inl hgone)))
    · exact absurd hgone hdestroying
  ended := by
    intro htrue
    rw [hended] at htrue
    cases htrue

/-- The worker goes on with what it holds. -/
theorem setPhase (h : Accounted s) {phase : WorkerPhase}
    (hcommand : phase.command = s.phase.command)
    (hreplying : ∀ command r, phase ≠ .replying command r)
    (hgone : phase.over = true ∨ phase = .destroying ∨ s.strong = 0 →
      { s with phase := phase }.strong = 0)
    (hended : phase.ended = true → s.queue = []) : Accounted { s with phase := phase } where
  numbers := h.numbers
  places := by
    dsimp only
    rw [hcommand]
    exact h.places
  dropped := h.dropped
  answers := h.answers
  replying := fun command r heq ↦ absurd heq (hreplying command r)
  gone := by
    rintro (hsender | hclosing | hover | hdestroying)
    · exact hgone (Or.inr (Or.inr (h.gone (Or.inl hsender))))
    · exact hgone (Or.inr (Or.inr (h.gone (Or.inr (Or.inl hclosing)))))
    · exact hgone (Or.inl hover)
    · exact hgone (Or.inr (Or.inl hdestroying))
  ended := hended

/-- The worker answers the command it holds. -/
theorem answer (h : Accounted s) {command : SessionCommand} {reply : TransferResult ℕ}
    {phase : WorkerPhase} (hheld : s.phase.command = some command) (hphase : phase.command = none)
    (hreply : reply = SessionLife.invalidated ∨ (command, reply) ∈ s.executed)
    (hholds : phase.holds = s.phase.holds) (hover : phase.over = s.phase.over)
    (hdestroying : phase ≠ .destroying) (hended : phase.ended = false) :
    Accounted { s with phase := phase, replies := s.replies ++ [(command, reply)] } where
  numbers := h.numbers
  places := by
    have hplaces := h.places
    rw [hheld] at hplaces
    dsimp only
    rw [hphase]
    simpa using hplaces
  dropped := h.dropped
  answers := by
    intro a ha
    rcases List.mem_append.mp ha with hold | hnew
    · exact h.answers a hold
    · rw [List.mem_singleton.mp hnew]
      exact hreply
  replying := by
    intro other r heq
    dsimp only at heq
    rw [heq] at hphase
    cases hphase
  gone := by
    dsimp only [SessionLife.strong]
    rw [hover, hholds]
    rintro (hgone | hgone | hgone | hgone)
    · exact h.gone (Or.inl hgone)
    · exact h.gone (Or.inr (Or.inl hgone))
    · exact h.gone (Or.inr (Or.inr (Or.inl hgone)))
    · exact absurd hgone hdestroying
  ended := by
    intro htrue
    rw [hended] at htrue
    cases htrue

/-- The worker finishes a batch. -/
theorem finish (h : Accounted s) {command : SessionCommand} (result : TransferResult ℕ)
    (hphase : s.phase = .executing command) : Accounted { s with
      phase := .replying command result
      executed := s.executed ++ [(command, result)] } where
  numbers := h.numbers
  places := by
    have hplaces := h.places
    rw [hphase] at hplaces
    exact hplaces
  dropped := h.dropped
  answers := fun a ha ↦ (h.answers a ha).imp_right (List.mem_append_left _)
  replying := by
    intro other r heq
    cases heq
    exact List.mem_append_right _ List.mem_cons_self
  gone := by
    have hholds : s.strong ≠ 0 := by
      unfold SessionLife.strong
      rw [hphase]
      exact Nat.succ_ne_zero _
    rintro (hgone | hgone | hgone | hgone)
    · exact absurd (h.gone (Or.inl hgone)) hholds
    · exact absurd (h.gone (Or.inr (Or.inl hgone))) hholds
    · cases hgone
    · cases hgone
  ended := nofun

/-- The receiver is dropped with an empty queue. -/
theorem exit (h : Accounted s) (hphase : s.phase = .leaving) : Accounted { s with
    phase := .stopped, queue := [], dropped := s.dropped ++ s.queue } where
  numbers := h.numbers
  places := by
    have hplaces := h.places
    rw [hphase, h.ended (by rw [hphase]; rfl)] at hplaces
    exact hplaces
  dropped := by
    dsimp only
    rw [h.dropped, h.ended (by rw [hphase]; rfl), List.append_nil]
  answers := h.answers
  replying := nofun
  gone := by
    have hgone := h.gone (Or.inr (Or.inr (Or.inl (by rw [hphase]; rfl))))
    unfold SessionLife.strong at hgone ⊢
    rw [hphase] at hgone
    exact fun _ ↦ hgone
  ended := fun _ ↦ rfl

/-- Every step of the worker keeps the invariant. -/
theorem work (h : Accounted s) {result : TransferResult ℕ} (hwork : s.work result = some s') :
    Accounted s' := by
  unfold SessionLife.work at hwork
  cases hphase : s.phase with
  | receiving =>
    simp only [hphase] at hwork
    split at hwork
    · rename_i command rest hqueue
      cases hwork
      exact h.take hqueue (by rw [hphase]; rfl) rfl (by rw [hphase]; rfl) (by rw [hphase]; rfl)
        nofun nofun rfl
    · rename_i hqueue
      split_ifs at hwork with hsender
      cases hwork
      have hstrong := h.gone (Or.inl ((Bool.not_eq_true _).mp hsender))
      unfold SessionLife.strong at hstrong
      rw [hphase] at hstrong
      exact h.setPhase (by rw [hphase]; rfl) nofun (fun _ ↦ hstrong) fun _ ↦ hqueue
  | received command =>
    simp only [hphase] at hwork
    split_ifs at hwork with hstrong
    · cases hwork
      unfold SessionLife.strong at hstrong
      rw [hphase] at hstrong
      exact h.setPhase (by rw [hphase]; rfl) nofun (fun _ ↦ hstrong) nofun
    · cases hwork
      refine h.setPhase (by rw [hphase]; rfl) nofun ?_ nofun
      rintro (hover | hdestroying | hzero)
      · cases hover
      · cases hdestroying
      · exact absurd hzero hstrong
  | executing command =>
    simp only [hphase] at hwork
    cases hwork
    exact h.finish result hphase
  | replying command reply =>
    simp only [hphase] at hwork
    cases hwork
    exact h.answer (by rw [hphase]; rfl) rfl (Or.inr (h.replying command reply hphase))
      (by rw [hphase]; rfl) (by rw [hphase]; rfl) nofun rfl
  | releasing =>
    simp only [hphase] at hwork
    cases hwork
    have hholds : s.strong ≠ 0 := by
      unfold SessionLife.strong
      rw [hphase]
      exact Nat.succ_ne_zero _
    by_cases hholders : s.holders = 0
    · rw [if_pos hholders]
      exact h.setPhase (by rw [hphase]; rfl) nofun (fun _ ↦ hholders) nofun
    · rw [if_neg hholders]
      refine h.setPhase (by rw [hphase]; rfl) nofun ?_ nofun
      rintro (hover | hdestroying | hzero)
      · cases hover
      · cases hdestroying
      · exact absurd hzero hholds
  | destroying =>
    simp only [hphase] at hwork
    cases hwork
    have hstrong := h.gone (Or.inr (Or.inr (Or.inr hphase)))
    unfold SessionLife.strong at hstrong
    rw [hphase] at hstrong
    have hphased : Accounted { s with phase := .receiving } :=
      h.setPhase (by rw [hphase]; rfl) nofun (fun _ ↦ hstrong) nofun
    exact ⟨hphased.numbers, hphased.places, hphased.dropped, hphased.answers, hphased.replying,
      fun _ ↦ hstrong, hphased.ended⟩
  | invalidating command =>
    simp only [hphase] at hwork
    cases hwork
    exact h.answer (by rw [hphase]; rfl) rfl (Or.inl rfl) (by rw [hphase]; rfl)
      (by rw [hphase]; rfl) nofun rfl
  | draining =>
    simp only [hphase] at hwork
    have hstrong := h.gone (Or.inr (Or.inr (Or.inl (by rw [hphase]; rfl))))
    unfold SessionLife.strong at hstrong
    rw [hphase] at hstrong
    split at hwork
    · rename_i command rest hqueue
      cases hwork
      exact h.take hqueue (by rw [hphase]; rfl) rfl (by rw [hphase]; rfl) (by rw [hphase]; rfl)
        nofun nofun rfl
    · rename_i hqueue
      cases hwork
      exact h.setPhase (by rw [hphase]; rfl) nofun (fun _ ↦ hstrong) fun _ ↦ hqueue
  | leaving =>
    simp only [hphase] at hwork
    cases hwork
    exact h.exit hphase
  | stopped =>
    simp only [hphase] at hwork
    cases hwork

theorem exec (h : Accounted s) {move : Move} (hexec : s.exec move = some s') : Accounted s' := by
  unfold SessionLife.exec at hexec
  cases move with
  | clone =>
    dsimp only at hexec
    split_ifs at hexec with hholders
    cases hexec
    refine h.references hholders (s.holders + 1) s.closing fun hclosing ↦ ?_
    exact absurd (h.gone (Or.inr (Or.inl hclosing))) (strong_pos s hholders)
  | drop =>
    dsimp only at hexec
    split_ifs at hexec with hholders
    cases hexec
    exact h.references hholders (s.holders - 1) _ of_decide_eq_true
  | destroy =>
    dsimp only at hexec
    split_ifs at hexec with hclosing
    cases hexec
    exact h.destroy (h.gone (Or.inr (Or.inl hclosing)))
  | submit ops kind =>
    dsimp only at hexec
    split_ifs at hexec with hholders
    cases hexec
    exact h.submit hholders ops kind
  | work result => exact h.work hexec

end Accounted

theorem sessionLife_accounted {moves : List Move} {s : SessionLife}
    (hrun : sessionLife.Run moves s) : Accounted s :=
  System.Steps.invariant hrun Accounted.start fun _ _ _ _ h hstep ↦ h.exec hstep

/-! ### How long a command waits -/

/-- The steps of the worker until the command it holds is answered. -/
def WorkerPhase.own : WorkerPhase → ℕ
  | .received _ => 3
  | .executing _ => 2
  | .replying _ _ => 1
  | .invalidating _ => 1
  | _ => 0

/-- The steps of the worker until it takes the next command. -/
def WorkerPhase.cost : WorkerPhase → ℕ
  | .received _ => 5
  | .executing _ => 4
  | .replying _ _ => 3
  | .releasing => 2
  | .destroying => 1
  | .invalidating _ => 1
  | _ => 0

theorem WorkerPhase.own_le_cost_le (phase : WorkerPhase) : phase.own ≤ 3 ∧ phase.cost ≤ 5 := by
  cases phase <;> simp [WorkerPhase.own, WorkerPhase.cost]

/-- A bound on the steps of the worker until a command is answered. -/
def SessionLife.rank (s : SessionLife) (command : SessionCommand) : ℕ :=
  if s.phase.command = some command then s.phase.own
  else if command ∈ s.queue then s.phase.cost + 6 * s.queue.idxOf command + 4
  else 0

theorem WorkerPhase.own_pos {phase : WorkerPhase} {command : SessionCommand}
    (h : phase.command = some command) : 0 < phase.own := by
  cases phase with
  | received | executing | replying | invalidating => exact Nat.succ_pos _
  | receiving | releasing | destroying | draining | leaving | stopped => cases h

namespace Accounted

variable {s s' : SessionLife} {command : SessionCommand}

theorem nodup (h : Accounted s) :
    (s.replies.map Prod.fst ++ s.phase.command.toList ++ s.queue).Nodup := by
  rw [h.places.nodup_iff]
  refine List.Nodup.of_map SessionCommand.number ?_
  rw [h.numbers]
  exact List.nodup_range

/-- A command is answered at most once. -/
theorem count_le (h : Accounted s) (command : SessionCommand) :
    (s.replies.map Prod.fst).count command ≤ 1 :=
  List.nodup_iff_count_le_one.mp h.nodup.of_append_left.of_append_left command

/-- A command that nobody waits for is answered. -/
theorem answered_of_rank (h : Accounted s) (hcommand : command ∈ s.accepted)
    (hrank : s.rank command = 0) : command ∈ s.replies.map Prod.fst := by
  unfold SessionLife.rank at hrank
  have hmem := h.places.mem_iff.mpr hcommand
  rw [List.mem_append, List.mem_append, Option.mem_toList] at hmem
  rcases hmem with (hreplied | hheld) | hqueued
  · exact hreplied
  · rw [if_pos hheld] at hrank
    exact absurd hrank (WorkerPhase.own_pos hheld).ne'
  · split_ifs at hrank with hheld
    exact absurd hrank (WorkerPhase.own_pos hheld).ne'

/-- While a command waits, the worker is not blocked. -/
theorem work_of_waiting (h : Accounted s) (hcommand : command ∈ s.accepted)
    (hwaits : command ∉ s.replies.map Prod.fst) (result : TransferResult ℕ) :
    ∃ s', s.work result = some s' := by
  have hmem := h.places.mem_iff.mpr hcommand
  rw [List.mem_append, List.mem_append, Option.mem_toList] at hmem
  have hplace : s.phase.command = some command ∨ command ∈ s.queue := by
    rcases hmem with (hreplied | hheld) | hqueued
    · exact absurd hreplied hwaits
    · exact Or.inl hheld
    · exact Or.inr hqueued
  have hended := h.ended
  unfold SessionLife.work
  cases hphase : s.phase with
  | receiving =>
    rw [hphase] at hplace
    obtain ⟨first, rest, hqueue⟩ := List.exists_cons_of_ne_nil
      (List.ne_nil_of_mem (hplace.resolve_left nofun))
    rw [hqueue]
    exact ⟨_, rfl⟩
  | received held =>
    dsimp only
    split_ifs
    · exact ⟨_, rfl⟩
    · exact ⟨_, rfl⟩
  | draining =>
    dsimp only
    split
    · exact ⟨_, rfl⟩
    · exact ⟨_, rfl⟩
  | stopped =>
    rw [hphase] at hplace hended
    have hqueued := hplace.resolve_left nofun
    rw [hended rfl] at hqueued
    cases hqueued
  | executing | replying | releasing | destroying | invalidating | leaving => exact ⟨_, rfl⟩

end Accounted

section Rank

variable {s s' : SessionLife} {command : SessionCommand}

/-- A step of the worker that takes nothing from the queue. -/
theorem rank_phase (hqueue : s'.queue = s.queue) (hcost : s'.phase.cost < s.phase.cost)
    (hown : s'.phase.command = some command → s.phase.command = some command ∧
      s'.phase.own < s.phase.own)
    (hfree : s.phase.command = some command → s'.phase.command = some command ∨
      command ∉ s.queue) : s'.rank command ≤ s.rank command - 1 := by
  unfold SessionLife.rank
  rw [hqueue]
  by_cases hheld : s'.phase.command = some command
  · obtain ⟨hbefore, hless⟩ := hown hheld
    rw [if_pos hheld, if_pos hbefore]
    omega
  · rw [if_neg hheld]
    by_cases hqueued : command ∈ s.queue
    · have hbefore : ¬ s.phase.command = some command := fun heq ↦
        (hfree heq).elim hheld fun hnot ↦ hnot hqueued
      rw [if_pos hqueued, if_neg hbefore, if_pos hqueued]
      omega
    · rw [if_neg hqueued]
      exact Nat.zero_le _

/-- A step of the worker that takes the first command of the queue. -/
theorem rank_take {first : SessionCommand} (hqueue : s.queue = first :: s'.queue)
    (hidle : s.phase.command = none) (hphase : s'.phase.command = some first) :
    s'.rank command ≤ s.rank command - 1 := by
  obtain ⟨hown, hcost⟩ := s'.phase.own_le_cost_le
  unfold SessionLife.rank
  rw [hidle, hphase, hqueue, if_neg (Option.some_ne_none command).symm]
  by_cases heq : first = command
  · subst heq
    rw [if_pos rfl, if_pos List.mem_cons_self]
    omega
  · have hne : ¬ some first = some command := fun h ↦ heq (Option.some.inj h)
    rw [if_neg hne]
    by_cases hmem : command ∈ s'.queue
    · rw [if_pos hmem, if_pos (List.mem_cons_of_mem _ hmem), List.idxOf_cons_ne _ heq]
      omega
    · rw [if_neg hmem]
      exact Nat.zero_le _

theorem rank_of_idle (hidle : s.phase.command = none) (hqueue : s.queue = []) :
    s.rank command = 0 := by
  unfold SessionLife.rank
  rw [hidle, hqueue, if_neg (Option.some_ne_none command).symm, if_neg List.not_mem_nil]

/-- Every step of the worker brings a waiting command closer to its answer. -/
theorem rank_work (h : Accounted s) {result : TransferResult ℕ} (hwork : s.work result = some s') :
    s'.rank command ≤ s.rank command - 1 := by
  have hnodup := h.nodup
  -- what the worker holds is not queued
  have hfree : s.phase.command = some command → command ∉ s.queue := by
    intro hheld hqueued
    rw [hheld] at hnodup
    exact (List.nodup_append.mp hnodup).2.2 command
      (List.mem_append_right _ List.mem_cons_self) command hqueued rfl
  unfold SessionLife.work at hwork
  cases hphase : s.phase with
  | receiving =>
    simp only [hphase] at hwork
    split at hwork
    · rename_i first rest hqueue
      cases hwork
      exact rank_take hqueue (by rw [hphase]; rfl) rfl
    · rename_i hqueue
      split_ifs at hwork
      cases hwork
      exact le_of_eq_of_le (rank_of_idle rfl hqueue) (Nat.zero_le _)
  | received held =>
    rw [hphase] at hfree
    simp only [hphase] at hwork
    split_ifs at hwork
    · cases hwork
      refine rank_phase rfl ?_ ?_ ?_ <;> rw [hphase]
      · exact (by decide : 1 < 5)
      · exact fun hheld ↦ ⟨hheld, (by decide : 1 < 3)⟩
      · exact Or.inl
    · cases hwork
      refine rank_phase rfl ?_ ?_ ?_ <;> rw [hphase]
      · exact (by decide : 4 < 5)
      · exact fun hheld ↦ ⟨hheld, (by decide : 2 < 3)⟩
      · exact Or.inl
  | executing held =>
    simp only [hphase] at hwork
    cases hwork
    refine rank_phase rfl ?_ ?_ ?_ <;> rw [hphase]
    · exact (by decide : 3 < 4)
    · exact fun hheld ↦ ⟨hheld, (by decide : 1 < 2)⟩
    · exact Or.inl
  | replying held reply =>
    rw [hphase] at hfree
    simp only [hphase] at hwork
    cases hwork
    refine rank_phase rfl ?_ ?_ ?_
    · rw [hphase]
      exact (by decide : 2 < 3)
    · exact fun hheld ↦ by cases hheld
    · exact fun hheld ↦ Or.inr (hfree (hphase ▸ hheld))
  | releasing =>
    simp only [hphase] at hwork
    cases hwork
    by_cases hholders : s.holders = 0
    · rw [if_pos hholders]
      refine rank_phase rfl ?_ ?_ ?_
      · rw [hphase]
        exact (by decide : 1 < 2)
      · exact fun hheld ↦ by cases hheld
      · rw [hphase]
        exact fun hheld ↦ by cases hheld
    · rw [if_neg hholders]
      refine rank_phase rfl ?_ ?_ ?_
      · rw [hphase]
        exact (by decide : 0 < 2)
      · exact fun hheld ↦ by cases hheld
      · rw [hphase]
        exact fun hheld ↦ by cases hheld
  | destroying =>
    simp only [hphase] at hwork
    cases hwork
    refine rank_phase rfl ?_ ?_ ?_
    · rw [hphase]
      exact (by decide : 0 < 1)
    · exact fun hheld ↦ by cases hheld
    · rw [hphase]
      exact fun hheld ↦ by cases hheld
  | invalidating held =>
    rw [hphase] at hfree
    simp only [hphase] at hwork
    cases hwork
    refine rank_phase rfl ?_ ?_ ?_
    · rw [hphase]
      exact (by decide : 0 < 1)
    · exact fun hheld ↦ by cases hheld
    · exact fun hheld ↦ Or.inr (hfree (hphase ▸ hheld))
  | draining =>
    simp only [hphase] at hwork
    split at hwork
    · rename_i first rest hqueue
      cases hwork
      exact rank_take hqueue (by rw [hphase]; rfl) rfl
    · rename_i hqueue
      cases hwork
      exact le_of_eq_of_le (rank_of_idle rfl hqueue) (Nat.zero_le _)
  | leaving =>
    simp only [hphase] at hwork
    cases hwork
    exact le_of_eq_of_le (rank_of_idle rfl rfl) (Nat.zero_le _)
  | stopped =>
    simp only [hphase] at hwork
    cases hwork

end Rank

theorem SessionLife.work_accepted {s s' : SessionLife} {result : TransferResult ℕ}
    (hwork : s.work result = some s') : s'.accepted = s.accepted := by
  unfold SessionLife.work at hwork
  grind

/-- Nothing but a step of the worker changes how long a command waits. -/
theorem rank_step {s s' : SessionLife} {move : Move} {command : SessionCommand} (h : Accounted s)
    (hcommand : command ∈ s.accepted) (hexec : s.exec move = some s') :
    command ∈ s'.accepted ∧
      s'.rank command ≤ s.rank command - if move.isWork then 1 else 0 := by
  unfold SessionLife.exec at hexec
  cases move with
  | clone =>
    dsimp only at hexec
    split_ifs at hexec
    cases hexec
    exact ⟨hcommand, Nat.le_refl _⟩
  | drop =>
    dsimp only at hexec
    split_ifs at hexec
    cases hexec
    exact ⟨hcommand, Nat.le_refl _⟩
  | destroy =>
    dsimp only at hexec
    split_ifs at hexec
    cases hexec
    exact ⟨hcommand, Nat.le_refl _⟩
  | submit ops kind =>
    dsimp only at hexec
    split_ifs at hexec with hholders
    cases hexec
    rw [h.transferBatchAsync_eq hholders]
    refine ⟨List.mem_append_left _ hcommand, ?_⟩
    -- the new command has a new number, and it is queued behind the others
    have hnew : command ≠ ⟨s.accepted.length, ops, kind⟩ := by
      intro heq
      have hnumber := List.mem_map_of_mem (f := SessionCommand.number) hcommand
      rw [h.numbers, List.mem_range, heq] at hnumber
      exact lt_irrefl _ hnumber
    unfold SessionLife.rank
    dsimp only
    by_cases hqueued : command ∈ s.queue
    · rw [List.idxOf_append_of_mem hqueued, if_pos hqueued,
        if_pos (List.mem_append_left _ hqueued)]
      exact Nat.le_refl _
    · have hnot : command ∉ s.queue ++ [⟨s.accepted.length, ops, kind⟩] := fun hmem ↦
        (List.mem_append.mp hmem).elim hqueued fun hlast ↦ hnew (List.mem_singleton.mp hlast)
      rw [if_neg hqueued, if_neg hnot]
      exact Nat.le_refl _
  | work result =>
    exact ⟨SessionLife.work_accepted hexec ▸ hcommand, rank_work h hexec⟩

/-- In every interleaving, a command whose submission was accepted is never dropped without an
answer and is answered at most once, with the result of its own batch or the error of a session that
is gone. While it waits, the worker is not blocked; and after as many steps of the worker as its
rank, with anything in between, it is answered exactly once. -/
theorem accepted_answered_once {moves : List Move} {s : SessionLife}
    (hrun : sessionLife.Run moves s) {command : SessionCommand} (hcommand : command ∈ s.accepted) :
    s.dropped = [] ∧ (s.replies.map Prod.fst).count command ≤ 1 ∧
      (∀ reply, (command, reply) ∈ s.replies →
        reply = SessionLife.invalidated ∨ (command, reply) ∈ s.executed) ∧
      (command ∉ s.replies.map Prod.fst →
        ∀ result, ∃ s', sessionLife.step s (.work result) s') ∧
      ∀ more s', sessionLife.Steps s more s' → s.rank command ≤ more.countP Move.isWork →
        (s'.replies.map Prod.fst).count command = 1 := by
  have h := sessionLife_accounted hrun
  refine ⟨h.dropped, h.count_le command, fun reply hreply ↦ h.answers _ hreply,
    fun hwaits result ↦ h.work_of_waiting hcommand hwaits result, fun more s' hsteps henough ↦ ?_⟩
  obtain ⟨⟨h', hcommand'⟩, hrank⟩ := hsteps.measure_le
    (I := fun s ↦ Accounted s ∧ command ∈ s.accepted) ⟨h, hcommand⟩ fun a move b ha hstep ↦
      ⟨⟨ha.1.exec hstep, (rank_step ha.1 ha.2 hstep).1⟩, (rank_step ha.1 ha.2 hstep).2⟩
  have hanswered := h'.answered_of_rank hcommand' (by omega)
  exact le_antisymm (h'.count_le command) (List.count_pos_iff.mpr hanswered)

namespace Scenario

/-- A move, with itself as the label. -/
def live (s : SessionLife) (move : Move) : Option (Move × SessionLife) :=
  (s.exec move).map fun s' ↦ (move, s')

theorem step_of_live (s : SessionLife) (move label : Move) (s' : SessionLife)
    (h : live s move = some (label, s')) : sessionLife.step s label s' := by
  obtain ⟨next, hnext, heq⟩ := Option.map_eq_some_iff.mp h
  cases heq
  exact hnext

/-- Two batches are submitted, and the last reference goes while the first is executed. The worker
drops its own reference, and the second batch is answered with the error. -/
theorem accepted_answered_once_orphan : ∃ moves s s', sessionLife.Run moves s ∧
    s.accepted = [⟨0, [], .read⟩, ⟨1, [], .write⟩] ∧
    sessionLife.Steps s (List.replicate 9 (.work (.ok 3))) s' ∧
    s'.replies = [(⟨0, [], .read⟩, .ok 3), (⟨1, [], .write⟩, SessionLife.invalidated)] ∧
    (s'.replies.map Prod.fst).count ⟨1, [], .write⟩ = 1 := by
  let s : SessionLife := ⟨0, true, false, .executing ⟨0, [], .read⟩, [⟨1, [], .write⟩],
    [⟨0, [], .read⟩, ⟨1, [], .write⟩], [], [], []⟩
  let s' : SessionLife := ⟨0, false, false, .stopped, [], [⟨0, [], .read⟩, ⟨1, [], .write⟩],
    [(⟨0, [], .read⟩, .ok 3)],
    [(⟨0, [], .read⟩, .ok 3), (⟨1, [], .write⟩, SessionLife.invalidated)], []⟩
  have hbefore : replay live [.submit [] .read, .submit [] .write, .work (.ok 0), .work (.ok 0),
    .drop] SessionLife.create = some (_, s) := rfl
  have hafter : replay live (List.replicate 9 (.work (.ok 3))) s = some (_, s') := rfl
  have hrun : sessionLife.Run _ s := steps_of_replay step_of_live _ hbefore
  have hsteps : sessionLife.Steps s _ s' := steps_of_replay step_of_live _ hafter
  refine ⟨_, s, s', hrun, rfl, hsteps, rfl, ?_⟩
  exact (accepted_answered_once hrun (by decide)).2.2.2.2 _ s' hsteps (by decide)

end Scenario

end Pegastore.Rdma
