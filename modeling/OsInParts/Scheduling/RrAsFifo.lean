import OsInParts.Scheduling.FifoSchedule
import OsInParts.Scheduling.RrFairness

/-!
# RrAsFifo — round robin with a quantum that no process uses up

Where the processes are entered in the order in which they arrive, none arrives
after an idle gap and no burst is longer than the quantum, every turn of `rr`
completes a process: the cursor never meets one that is completed already or has
yet to come (`RrAsFifo.turn`). After `n` turns the slices and the times are those
of `fifo`, whose sort leaves such an array as it is (`sort_eq_self`).
-/

namespace OsInParts.Scheduling

open Lib Lib.Loop

variable {n : Nat} {p : Fin n → Process} {timeQuantum : Int}

/-- Process `i` as `rr` leaves it. -/
def rrRecord (p : Fin n → Process) (i : Fin n) : Process :=
  { fifoRecord p i with remainingTime := 0, started := true }

/-- Before turn `k` of `rr`. -/
structure RrAsFifo (p : Fin n → Process) (k : ℕ) (s : Rr n) : Prop where
  clock : s.currentTime = fifoClock p k
  written : ∀ i, i.val < k → s.p i = rrRecord p i
  rest : ∀ i, k ≤ i.val → s.p i = p i
  isCompleted : ∀ i, s.isCompleted i = decide (i.val < k)
  completed : s.completed = k
  slices : s.slices = ((List.finRange n).take k).map (fifoSlice p)
  queue : ∀ i, s.queue i = i.val + 1
  idx : s.idx = k

theorem RrAsFifo.start (hb : Built p) : RrAsFifo p 0 (Rr.initial p) where
  clock := rfl
  written := fun _ hi => absurd hi (Nat.not_lt_zero _)
  rest := fun _ _ => rfl
  isCompleted := fun _ => rfl
  completed := rfl
  slices := rfl
  queue := hb.pid
  idx := rfl

/-! ## The next process has arrived -/

/-- The clock shows at least the bursts so far. -/
theorem le_fifoClock {k : ℕ} (hk : k ≤ n) :
    (∑ j : Fin n, if j.val < k then (p j).burstTime else 0) ≤ fifoClock p k := by
  induction k with
  | zero => simp [fifoClock]
  | succ k ih =>
      have hlt : k < n := hk
      have hbefore := ih hlt.le
      have hsplit : (∑ j : Fin n, if j.val < k + 1 then (p j).burstTime else 0)
          = (∑ j : Fin n, if j.val < k then (p j).burstTime else 0) + (p ⟨k, hlt⟩).burstTime := by
        have hlast := Finset.sum_ite_eq' Finset.univ (⟨k, hlt⟩ : Fin n) fun j => (p j).burstTime
        rw [if_pos (Finset.mem_univ _)] at hlast
        rw [← hlast, ← Finset.sum_add_distrib]
        refine Finset.sum_congr rfl fun j _ => ?_
        have hiff : j = ⟨k, hlt⟩ ↔ j.val = k := Fin.ext_iff
        simp only [hiff]
        rcases Nat.lt_trichotomy j.val k with hj | hj | hj
        · rw [if_pos (by omega), if_pos hj, if_neg (by omega), Int.add_zero]
        · rw [if_pos (by omega), if_neg (by omega), if_pos hj, Int.zero_add]
        · rw [if_neg (by omega), if_neg (by omega), if_neg (by omega), Int.add_zero]
      have hstart := le_max_left (fifoClock p k) (p ⟨k, hlt⟩).arrivalTime
      rw [hsplit, fifoClock, dif_pos hlt]
      omega

theorem arrived_of_noIdleGap (hburst : ∀ i, 0 ≤ (p i).burstTime)
    (hsorted : Monotone fun i => (p i).arrivalTime) (hgap : NoIdleGap p) (i : Fin n) :
    (p i).arrivalTime ≤ fifoClock p i := by
  refine (hgap i).trans (le_trans (Finset.sum_le_sum fun j _ => ?_) (le_fifoClock i.isLt.le))
  have hpos := hburst j
  by_cases hj : (p j).arrivalTime < (p i).arrivalTime
  · have hlt : j.val < i.val := by
      by_contra hge
      exact absurd (hsorted (Fin.le_def.mpr (not_lt.mp hge))) (not_le.mpr hj)
    rw [if_pos hj, if_pos hlt]
  · rw [if_neg hj]
    split
    · exact hpos
    · exact le_rfl

/-- **A turn** executes the next process to its end. -/
theorem RrAsFifo.turn {k : ℕ} {s s' : Rr n} (h : RrAsFifo p k s) (hb : Built p) (hk : k < n)
    (hquantum : ∀ i, (p i).burstTime ≤ timeQuantum)
    (harrived : (p ⟨k, hk⟩).arrivalTime ≤ fifoClock p k) (hbody : rrBody timeQuantum s = some s') :
    RrAsFifo p (k + 1) s' := by
  have hn : 0 < n := Nat.zero_lt_of_lt hk
  have hcursor : s.cursor hn = ⟨k, hk⟩ := Fin.ext (by simp [Rr.cursor, h.idx, Nat.mod_eq_of_lt hk])
  rw [rrBody_eq ⟨h.queue, by rw [h.idx]; exact hk.le⟩ hn, hcursor, h.idx,
    Nat.mod_eq_of_lt hk] at hbody
  generalize hi : (⟨k, hk⟩ : Fin n) = i at harrived hbody
  obtain rfl : k = i.val := by rw [← hi]
  have hproc : s.p i = p i := h.rest i le_rfl
  have hstart : fifoStart p i = fifoClock p i := by rw [fifoStart, max_eq_left harrived]
  have hclock : fifoClock p (i.val + 1) = fifoClock p i + (p i).burstTime := by
    rw [fifoClock_succ, hstart]
  have hlength : executionTime timeQuantum (s.p i).remainingTime = (p i).burstTime := by
    rw [hproc, hb.remainingTime, executionTime, if_neg (not_lt.mpr (hquantum i))]
  have hopen : s.isCompleted i = false := by
    rw [h.isCompleted, decide_eq_false (lt_irrefl i.val)]
  obtain ⟨c, hc, rfl⟩ := Option.map_eq_some_iff.mp hbody
  have hc' : c = s.afterTurn timeQuantum i := by
    rcases turn_cases hc with ⟨-, -, heq⟩ | ⟨hnot, -⟩
    · exact heq
    · exact absurd ⟨by rw [hproc, h.clock]; exact harrived, hopen⟩ hnot
  have hlast : (s.p i).remainingTime - executionTime timeQuantum (s.p i).remainingTime = 0 := by
    rw [hlength, hproc, hb.remainingTime, Int.sub_self]
  have hafter : c = (s.grant i (s.turned timeQuantum i) (p i).burstTime).complete i := by
    rw [hc', Cpu.afterTurn, Cpu.serve, if_pos hlast, hlength]
  subst hafter
  refine ⟨?_, fun j hj => ?_, fun j hj => ?_, fun j => ?_, ?_, ?_, h.queue, rfl⟩
  · rw [hclock, ← h.clock]
    rfl
  · by_cases hji : j = i
    · subst hji
      have hnow : ∀ process, (s.grant j process (p j).burstTime).currentTime
          = fifoClock p (j.val + 1) := fun process => by
        rw [hclock, ← h.clock]
        rfl
      rw [hproc] at hlast
      simp only [Cpu.complete, Function.update_self, grant_self, hnow, Cpu.turned, hproc,
        hb.started, if_true, h.clock, hlast, rrRecord, fifoRecord, hstart]
    · have hne : j.val ≠ i.val := fun heq => hji (Fin.ext heq)
      rw [complete_of_ne _ i hji, grant_of_ne _ _ _ _ hji]
      exact h.written j (by omega)
  · have hji : j ≠ i := by
      rintro rfl
      omega
    rw [complete_of_ne _ i hji, grant_of_ne _ _ _ _ hji]
    exact h.rest j (by omega)
  · by_cases hji : j = i
    · subst hji
      simp [Cpu.complete]
    · have hne : j.val ≠ i.val := fun heq => hji (Fin.ext heq)
      have hiff : (j.val < i.val + 1) = (j.val < i.val) := by
        rw [eq_iff_iff]
        omega
      simp only [Cpu.complete, Cpu.grant, Function.update_of_ne hji, hiff]
      exact h.isCompleted j
  · exact congrArg (· + 1) h.completed
  · have hlt : i.val < (List.finRange n).length := by simp
    rw [List.take_succ_eq_append_getElem hlt, List.map_append, ← h.slices]
    simp [Cpu.complete, Cpu.grant, fifoSlice, hstart, hclock, h.clock]

/-! ## The whole run -/

/-- Processes that are entered in the order of arrival are sorted already. -/
theorem sort_eq_self (hb : Built p) (hsorted : Monotone fun i => (p i).arrivalTime) :
    BubbleSort.sort Process.After p = p := by
  obtain ⟨e, he⟩ := BubbleSort.sort_perm Process.After p
  have hpid : Function.Injective fun i => (p i).pid := fun i j hij => by
    have h : (p i).pid = (p j).pid := hij
    rw [hb.pid, hb.pid] at h
    exact Fin.ext (by omega)
  have hkey : StrictMono fun i => toLex ((p i).arrivalTime, (p i).pid) := fun i j hij => by
    rw [Prod.Lex.toLex_lt_toLex]
    rcases (hsorted hij.le).lt_or_eq with hlt | heq
    · exact .inl hlt
    · refine .inr ⟨heq, ?_⟩
      have hval : i.val < j.val := hij
      dsimp only
      rw [hb.pid, hb.pid]
      omega
  have hmono : StrictMono e := fun i j hij => by
    have hlt := sorted_strict hpid hij
    rw [he] at hlt
    exact hkey.lt_iff_lt.mp hlt
  have hid : (hmono.orderIsoOfSurjective e e.surjective) = OrderIso.refl (Fin n) :=
    Subsingleton.elim _ _
  have heq : (e : Fin n → Fin n) = id := by
    funext i
    exact congrArg (fun f : Fin n ≃o Fin n => f i) hid
  rw [he, heq, Function.comp_id]

/-- **Round robin with a quantum that no burst exceeds is first in, first out**: for
processes entered in the order of arrival with no idle gap, `rr` ends, executes the
same slices as `fifo` and writes the same times. -/
theorem rr_eq_fifo (hb : Built p) (harrival : ∀ i, 0 ≤ (p i).arrivalTime)
    (hburst : ∀ i, 1 ≤ (p i).burstTime) (hsorted : Monotone fun i => (p i).arrivalTime)
    (hgap : NoIdleGap p) (hsum : ∑ i, (p i).burstTime ≤ intMax) (hq : 1 ≤ timeQuantum)
    (hquantum : ∀ i, (p i).burstTime ≤ timeQuantum) :
    ∃ s f, Returns (rrLoop timeQuantum) (Rr.initial p) s ∧ fifo p = some f ∧
      s.slices = f.slices ∧
      ∀ i, s.p i = { f.process i with remainingTime := 0, started := true } := by
  have hv : Valid p := ⟨harrival, hburst⟩
  have hpos : ∀ i, 0 ≤ (p i).burstTime := fun i => Int.le_trans (by decide) (hburst i)
  have hfit := timesFit_of_noIdleGap hgap hsum
  obtain ⟨hstart, hqueue⟩ := RrInv.start hb hv
  obtain ⟨s, hs, ⟨⟨k, h⟩, -⟩, hdone⟩ := while_returns
    (c := fun s => decide (s.completed < n)) (f := rrBody timeQuantum)
    (fun s => (∃ k, RrAsFifo p k s) ∧ (∃ t rem, RrInv p rem t s.toCpu) ∧ RrQueue s) Rr.variant
    (fun s ⟨⟨k, h⟩, hinv, hqueue⟩ hc => by
      have hk : k < n := by simpa [h.completed] using hc
      obtain ⟨s', hbody, ⟨hinv', hqueue'⟩, hlt⟩ := rr_turn hv hfit hgap hq hinv hqueue
        (by simpa using hc)
      have harrived := arrived_of_noIdleGap hpos hsorted hgap ⟨k, hk⟩
      exact ⟨s', hbody, ⟨⟨_, h.turn hb hk hquantum harrived hbody⟩, hinv', hqueue'⟩, hlt⟩)
    ⟨⟨0, RrAsFifo.start hb⟩, ⟨0, _, hstart⟩, hqueue⟩
  obtain ⟨f, e, hf, he, hprocess, hslices⟩ := fifo_eq harrival hpos hfit
  have hpe : p ∘ e = p := he.symm.trans (sort_eq_self hb hsorted)
  have hkn : n ≤ k := by simpa [h.completed] using hdone
  rw [hpe] at hprocess hslices
  refine ⟨s, f, hs, hf, ?_, fun i => ?_⟩
  · rw [h.slices, hslices, List.take_of_length_le (by simpa using hkn)]
  · rw [h.written i (by omega), hprocess]
    rfl

/-- Three processes with a quantum of 4. -/
theorem rr_eq_fifo_sample :
    ∃ s f, Returns (rrLoop 4) (Rr.initial (inputProcesses (fun _ => Process.zero)
        ![(0, 3), (1, 4), (7, 1)])) s ∧
      fifo (inputProcesses (fun _ => Process.zero) ![(0, 3), (1, 4), (7, 1)]) = some f ∧
      s.slices = f.slices ∧
      ∀ i, s.p i = { f.process i with remainingTime := 0, started := true } :=
  rr_eq_fifo (built_inputProcesses _ _) (by decide) (by decide) (by decide)
    (by unfold NoIdleGap; decide) (by decide) (by decide) (by decide)

end OsInParts.Scheduling
