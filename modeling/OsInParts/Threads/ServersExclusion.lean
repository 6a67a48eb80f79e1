import Mathlib.Algebra.BigOperators.Group.Finset.Piecewise
import OsInParts.Threads.Servers

/-!
# ServersExclusion — what the channel semaphores are worth

The channel invariant read as exclusion: a channel has at most one holder, so
servers that process at the same time share no channel, and since each of
them holds two there are at most half as many as channels.
-/

namespace OsInParts.Servers

open Lib.Threads

variable {N T : Nat}

/-- Between the second `sem_wait` and the first `sem_post`. -/
def Processing (s : State N) (i : Fin N) : Prop :=
  (s.servers i).pc = .processing ∨ (s.servers i).pc = .postLeft

instance (s : State N) : DecidablePred (Processing s) := fun i =>
  inferInstanceAs (Decidable ((s.servers i).pc = .processing ∨ (s.servers i).pc = .postLeft))

/-- The servers that hold channel `c`. -/
def holders (s : State N) (c : Fin N) : Finset (Fin N) :=
  Finset.univ.filter fun i => Holds i (s.servers i).pc c

/-- The two channels of server `i`. -/
def channelsOf (i : Fin N) : Finset (Fin N) := {leftChannel i, rghtChannel i}

theorem card_channelsOf (hN : 2 ≤ N) (i : Fin N) : (channelsOf i).card = 2 :=
  Finset.card_pair (leftChannel_ne hN i)

/-- A server that is processing holds both its channels. -/
theorem Processing.holds {s : State N} {i c : Fin N} (h : Processing s i)
    (hc : c ∈ channelsOf i) : i ∈ holders s c := by
  have hc' : c = leftChannel i ∨ c = rghtChannel i := by simpa [channelsOf] using hc
  have hboth := (both_channels i c).mpr hc'
  rw [holders, Finset.mem_filter]
  refine ⟨Finset.mem_univ i, ?_⟩
  rcases h with hpc | hpc <;> (rw [hpc]; exact hboth)

theorem ChannelInv.card_holders {s : State N} (h : ChannelInv s) (c : Fin N) :
    s.channels c + (holders s c).card = 1 := by
  have hinv := h c
  rw [tally] at hinv
  rw [holders, Finset.card_filter]
  exact hinv

/-- A channel has one holder at most. -/
theorem ChannelInv.holder_eq {s : State N} (h : ChannelInv s) {c i j : Fin N}
    (hi : i ∈ holders s c) (hj : j ∈ holders s c) : i = j := by
  have hcard := h.card_holders c
  exact Finset.card_le_one.mp (by omega) i hi j hj

/-- Servers that process at the same time share no channel. -/
theorem ChannelInv.disjoint {s : State N} (h : ChannelInv s) {i j : Fin N} (hij : i ≠ j)
    (hi : Processing s i) (hj : Processing s j) : Disjoint (channelsOf i) (channelsOf j) := by
  rw [Finset.disjoint_left]
  exact fun c hci hcj => hij (h.holder_eq (hi.holds hci) (hj.holds hcj))

/-- Two channels for each of them. -/
theorem ChannelInv.card_processing {s : State N} (h : ChannelInv s) (hN : 2 ≤ N) :
    (Finset.univ.filter (Processing s)).card ≤ N / 2 := by
  have hunion : ((Finset.univ.filter (Processing s)).biUnion channelsOf).card
      = (Finset.univ.filter (Processing s)).card * 2 := by
    rw [Finset.card_biUnion fun i hi j hj hij => h.disjoint hij (Finset.mem_filter.mp hi).2
      (Finset.mem_filter.mp hj).2]
    exact Finset.sum_const_nat fun i _ => card_channelsOf hN i
  have hle := Finset.card_le_univ ((Finset.univ.filter (Processing s)).biUnion channelsOf)
  rw [hunion, Fintype.card_fin] at hle
  omega

/-- **Exclusion**, for any number of servers from two on, any number of tasks
and any interleaving. A semaphore is 1 less the number of servers that hold
its channel, so it is 0 or 1; no two servers that process at the same time
share a channel, and at most half as many as there are servers process; when
all have finished every semaphore is back at 1. -/
theorem channels_exclusive (hN : 2 ≤ N) {s : State N}
    (h : Reachable (serverFunc T) (initial N) s) :
    (∀ c, (s.channels c = 0 ∨ s.channels c = 1) ∧
      (s.channels c : Int) = 1 - (holders s c).card) ∧
    (∀ i j, i ≠ j → Processing s i → Processing s j →
      Disjoint (channelsOf i) (channelsOf j)) ∧
    (Finset.univ.filter (Processing s)).card ≤ N / 2 ∧
    ((∀ i, Finished s i) → ∀ c, s.channels c = 1) := by
  have hinv := channelInv_reachable hN h
  refine ⟨fun c => ?_, fun i j hij hi hj => hinv.disjoint hij hi hj, hinv.card_processing hN,
    fun hdone c => ?_⟩
  · have hcard := hinv.card_holders c
    omega
  · have hnone : holders s c = ∅ := by
      refine Finset.filter_false_of_mem fun i _ => ?_
      rw [show (s.servers i).pc = .done from hdone i]
      exact fun hholds => hholds
    have hcard := hinv.card_holders c
    rw [hnone, Finset.card_empty] at hcard
    omega

/-- Two of five servers process, on four channels. -/
theorem channels_exclusive_five :
    ∃ s, Reachable (serverFunc 3) (initial 5) s ∧ Processing s 0 ∧ Processing s 2 ∧
      Disjoint (channelsOf (0 : Fin 5)) (channelsOf 2) := by
  have hexec := Option.eq_some_of_isSome
    (o := exec (serverFunc 3) (initial 5) [0, 0, 0, 2, 2, 2]) rfl
  have hreach := Reachable.exec .start _ hexec
  exact ⟨_, hreach, .inl rfl, .inl rfl,
    (channels_exclusive (by decide) hreach).2.1 0 2 (by decide) (.inl rfl) (.inl rfl)⟩

end OsInParts.Servers
