import OsInParts.Lib.Threads
import Mathlib.Data.Finset.Max

/-!
# Servers — servers sharing channels around a ring

`Multithreading/q2.c`: server `i` needs channels `i` and `i + 1` (modulo the
number of servers) for each of its tasks, waits for the lower-numbered one
first, and gives both back. `TOTAL_SERVERS` is `N`, `MAX_TASKS` is `T`.

A channel's semaphore and the servers that hold it always add up to one
(`ChannelInv`). A server that is blocked on its second channel holds its
lower one, so the blocked server that wants the highest channel would have
to be waiting for a server blocked on a higher one: some server can always
move (`server_can_step`).
-/

namespace OsInParts.Servers

open Lib.Threads

/-- Where a server is in `server_func`. -/
inductive Pc where
  /-- at the loop test -/
  | loop
  /-- at the first `sem_wait` -/
  | waitFirst
  /-- at the second `sem_wait` -/
  | waitSecond
  /-- in `sleep` -/
  | processing
  | postLeft
  | postRight
  /-- returned -/
  | done
  deriving DecidableEq

structure Server where
  taskCount : Nat
  pc : Pc
  deriving DecidableEq

/-- The values of the channel semaphores and the servers. -/
structure State (N : Nat) where
  channels : Fin N → Nat
  servers : Fin N → Server

variable {N : Nat}

/-- `main` has set every semaphore to 1 and started every server. -/
def initial (N : Nat) : State N :=
  { channels := fun _ => 1, servers := fun _ => { taskCount := 0, pc := .loop } }

def leftChannel (serverId : Fin N) : Fin N := serverId

theorem rghtChannel_lt (serverId : Fin N) : (serverId.val + 1) % N < N :=
  Nat.mod_lt _ (Nat.zero_lt_of_lt serverId.isLt)

/-- `(server_id + 1) % TOTAL_SERVERS`. -/
def rghtChannel (serverId : Fin N) : Fin N :=
  ⟨(serverId.val + 1) % N, rghtChannel_lt serverId⟩

/-- The channel of the first `sem_wait`. -/
def firstChannel (i : Fin N) : Fin N :=
  if leftChannel i < rghtChannel i then leftChannel i else rghtChannel i

/-- The channel of the second `sem_wait`. -/
def secondChannel (i : Fin N) : Fin N :=
  if leftChannel i < rghtChannel i then rghtChannel i else leftChannel i

def State.setServer (s : State N) (i : Fin N) (server : Server) : State N :=
  { s with servers := Function.update s.servers i server }

def State.setPc (s : State N) (i : Fin N) (pc : Pc) : State N :=
  s.setServer i { s.servers i with pc := pc }

/-- Blocked at 0, otherwise one less. -/
def semWait (c : Fin N) (s : State N) : Option (State N) :=
  if 0 < s.channels c then
    some { s with channels := Function.update s.channels c (s.channels c - 1) }
  else none

def semPost (c : Fin N) (s : State N) : State N :=
  { s with channels := Function.update s.channels c (s.channels c + 1) }

@[simp] theorem semPost_channels (c : Fin N) (s : State N) :
    (semPost c s).channels = Function.update s.channels c (s.channels c + 1) := rfl

/-- The next step of server `i` in `server_func`. -/
def serverFunc (T : Nat) (i : Fin N) (s : State N) : Option (State N) :=
  match (s.servers i).pc with
  | .loop =>
      if (s.servers i).taskCount < T then some (s.setPc i .waitFirst)
      else some (s.setPc i .done)
  | .waitFirst => (semWait (firstChannel i) s).map (·.setPc i .waitSecond)
  | .waitSecond => (semWait (secondChannel i) s).map (·.setPc i .processing)
  | .processing => some (s.setPc i .postLeft)
  | .postLeft => some ((semPost (leftChannel i) s).setPc i .postRight)
  | .postRight =>
      some ((semPost (rghtChannel i) s).setServer i
        { taskCount := (s.servers i).taskCount + 1, pc := .loop })
  | .done => none

/-- The server has returned from `server_func`. -/
def Finished (s : State N) (i : Fin N) : Prop := (s.servers i).pc = .done

instance (s : State N) : DecidablePred (Finished s) := fun i =>
  inferInstanceAs (Decidable ((s.servers i).pc = .done))

/-! ## The order of the two waits -/

theorem leftChannel_ne (hN : 2 ≤ N) (i : Fin N) : leftChannel i ≠ rghtChannel i := by
  intro h
  have hval := congrArg Fin.val h
  simp only [leftChannel, rghtChannel] at hval
  by_cases hlast : i.val + 1 = N
  · rw [hlast, Nat.mod_self] at hval
    omega
  · have := i.isLt
    rw [Nat.mod_eq_of_lt (by omega)] at hval
    omega

/-- The lower-numbered channel comes first, also for the last server. -/
theorem firstChannel_lt (hN : 2 ≤ N) (i : Fin N) : firstChannel i < secondChannel i := by
  unfold firstChannel secondChannel
  split
  · assumption
  · rename_i h
    exact lt_of_le_of_ne (not_lt.mp h) (leftChannel_ne hN i).symm

/-- Which channels a server holds at `pc`: the first one after one wait, both
after two, the right one after one post. -/
def Holds (i : Fin N) (pc : Pc) (c : Fin N) : Prop :=
  match pc with
  | .loop | .waitFirst | .done => False
  | .waitSecond => c = firstChannel i
  | .processing | .postLeft => c = firstChannel i ∨ c = secondChannel i
  | .postRight => c = rghtChannel i

instance (i : Fin N) (pc : Pc) (c : Fin N) : Decidable (Holds i pc c) := by
  cases pc <;> unfold Holds <;> infer_instance

/-- 1 for a server that holds `c`. -/
def holdsWeight (c : Fin N) (i : Fin N) (server : Server) : Nat :=
  if Holds i server.pc c then 1 else 0

theorem both_channels (i c : Fin N) :
    (c = firstChannel i ∨ c = secondChannel i) ↔ (c = leftChannel i ∨ c = rghtChannel i) := by
  unfold firstChannel secondChannel
  split
  · rfl
  · exact or_comm

/-- **The channel invariant**: a semaphore and its holders add up to one. -/
def ChannelInv (s : State N) : Prop :=
  ∀ c, s.channels c + tally (holdsWeight c) s.servers = 1

theorem channelInv_initial : ChannelInv (initial N) := by
  intro c
  rw [tally_eq_zero (fun i => by simp [holdsWeight, Holds, initial])]
  rfl

/-- A step of server `i` to `server` that moves each channel by what the
server takes or gives back keeps the invariant. -/
theorem ChannelInv.move {s : State N} (h : ChannelInv s) (i : Fin N) (server : Server)
    {channels : Fin N → Nat}
    (hc : ∀ c, channels c + holdsWeight c i server
      = s.channels c + holdsWeight c i (s.servers i)) :
    ChannelInv { channels := channels, servers := Function.update s.servers i server } := by
  intro c
  have h1 := h c
  have h2 := hc c
  have h3 := tally_update (holdsWeight c) s.servers i server
  have h4 := le_tally (holdsWeight c) s.servers i
  dsimp only
  omega

theorem channelInv_step (hN : 2 ≤ N) {T : Nat} {i : Fin N} {s s' : State N}
    (h : ChannelInv s) (hs : serverFunc T i s = some s') : ChannelInv s' := by
  have hlt := firstChannel_lt hN i
  have hne := leftChannel_ne hN i
  unfold serverFunc at hs
  split at hs
  case h_1 hpc =>
    split at hs <;> cases hs <;>
      exact h.move i _ fun c => by simp [holdsWeight, Holds, hpc]
  case h_2 hpc =>
    obtain ⟨s₁, hw, rfl⟩ := Option.map_eq_some_iff.mp hs
    unfold semWait at hw
    split at hw <;> cases hw
    refine h.move i _ fun c => ?_
    by_cases hc : c = firstChannel i
    · subst hc
      simp only [holdsWeight, Holds, hpc, if_true, if_false, Function.update_self]
      omega
    · simp [holdsWeight, Holds, hpc, hc]
  case h_3 hpc =>
    obtain ⟨s₁, hw, rfl⟩ := Option.map_eq_some_iff.mp hs
    unfold semWait at hw
    split at hw <;> cases hw
    refine h.move i _ fun c => ?_
    by_cases hc : c = secondChannel i
    · subst hc
      simp only [holdsWeight, Holds, hpc, hlt.ne', or_true, if_true, if_false,
        Function.update_self]
      omega
    · simp [holdsWeight, Holds, hpc, hc]
  case h_4 hpc =>
    cases hs
    exact h.move i _ fun c => by simp [holdsWeight, Holds, hpc]
  case h_5 hpc =>
    cases hs
    refine h.move i _ fun c => ?_
    by_cases hc : c = leftChannel i
    · simp [holdsWeight, Holds, hpc, both_channels, hc, hne]
    · simp [holdsWeight, Holds, hpc, both_channels, hc]
  case h_6 hpc =>
    cases hs
    refine h.move i _ fun c => ?_
    by_cases hc : c = rghtChannel i
    · subst hc
      simp [holdsWeight, Holds, hpc]
    · simp [holdsWeight, Holds, hpc, hc]
  case h_7 => cases hs

theorem channelInv_reachable (hN : 2 ≤ N) {T : Nat} {s : State N}
    (h : Reachable (serverFunc T) (initial N) s) : ChannelInv s :=
  h.invariant channelInv_initial fun _ _ _ hI _ hs => channelInv_step hN hI hs

/-! ## Deadlock freedom -/

/-- A server that has not finished and cannot move is at one of its waits,
on a channel some other server holds. -/
theorem blocked_cases {T : Nat} {s : State N} {i : Fin N} (hdone : ¬ Finished s i)
    (hs : serverFunc T i s = none) :
    ((s.servers i).pc = .waitFirst ∧ s.channels (firstChannel i) = 0) ∨
      ((s.servers i).pc = .waitSecond ∧ s.channels (secondChannel i) = 0) := by
  unfold serverFunc at hs
  cases hpc : (s.servers i).pc with
  | loop => rw [hpc] at hs; dsimp only at hs; split at hs <;> cases hs
  | waitFirst =>
      rw [hpc] at hs
      simp only [semWait, Option.map_eq_none_iff, ite_eq_right_iff, reduceCtorEq,
        imp_false] at hs
      exact .inl ⟨rfl, by omega⟩
  | waitSecond =>
      rw [hpc] at hs
      simp only [semWait, Option.map_eq_none_iff, ite_eq_right_iff, reduceCtorEq,
        imp_false] at hs
      exact .inr ⟨rfl, by omega⟩
  | processing => rw [hpc] at hs; cases hs
  | postLeft => rw [hpc] at hs; cases hs
  | postRight => rw [hpc] at hs; cases hs
  | done => exact absurd hpc hdone

/-- The channel a server waits for. -/
def wanted (s : State N) (i : Fin N) : Fin N :=
  if (s.servers i).pc = .waitFirst then firstChannel i else secondChannel i

/-- **Deadlock freedom**: for any number of servers from two on and any
number of tasks, while some server has not finished some unfinished server
can take a step. -/
theorem server_can_step (hN : 2 ≤ N) (T : Nat) {s : State N}
    (h : Reachable (serverFunc T) (initial N) s) (hu : ∃ i, ¬ Finished s i) :
    ∃ i, ¬ Finished s i ∧ (serverFunc T i s).isSome := by
  by_contra hstuck
  simp only [not_exists, not_and, Bool.not_eq_true, Option.isSome_eq_false_iff,
    Option.isNone_iff_eq_none] at hstuck
  classical
  -- among the unfinished servers, one wants the highest channel
  obtain ⟨i, hi, hmax⟩ := Finset.exists_max_image
    (Finset.univ.filter fun i => ¬ Finished s i) (wanted s)
    (by obtain ⟨i, hi⟩ := hu; exact ⟨i, by simpa using hi⟩)
  have hi' : ¬ Finished s i := by simpa using hi
  have hzero : s.channels (wanted s i) = 0 := by
    rcases blocked_cases hi' (hstuck i hi') with ⟨hpc, hc⟩ | ⟨hpc, hc⟩ <;>
      simpa [wanted, hpc] using hc
  -- so some server holds it
  have hinv := channelInv_reachable hN h (wanted s i)
  obtain ⟨j, hj⟩ := exists_of_tally_pos (w := holdsWeight (wanted s i)) (f := s.servers)
    (by omega)
  have hholds : Holds j (s.servers j).pc (wanted s i) := by
    by_contra hn
    simp [holdsWeight, hn] at hj
  have hj' : ¬ Finished s j := by
    intro hd
    rw [Finished] at hd
    simp [hd, Holds] at hholds
  rcases blocked_cases hj' (hstuck j hj') with ⟨hpc, _⟩ | ⟨hpc, _⟩
  · simp [hpc, Holds] at hholds
  · -- the holder is blocked on its second, higher channel
    simp only [hpc, Holds] at hholds
    have hle := hmax j (by simpa using hj')
    have hlt := firstChannel_lt hN j
    rw [hholds, wanted, if_neg (by simp [hpc])] at hle
    exact absurd hle (not_le.mpr hlt)

/-- Five servers with the even and the odd ones on their second channels. -/
theorem server_can_step_five :
    ∃ s, exec (serverFunc 3) (initial 5) [0, 0, 1, 1, 2, 2, 3, 3, 4] = some s ∧
      ∃ i, ¬ Finished s i ∧ (serverFunc 3 i s).isSome :=
  ⟨_, rfl, server_can_step (by decide) 3
    (Reachable.exec .start [0, 0, 1, 1, 2, 2, 3, 3, 4] rfl) ⟨0, by decide⟩⟩

end OsInParts.Servers
