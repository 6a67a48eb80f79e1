import Mathlib.Data.Nat.Log
import Mathlib.Tactic.Positivity
import OsInParts.Forking.BinarySearch

/-!
# SearchChain — the chain of processes of one search

`Window arr target j start stop` is the search invariant: the target can only
be in `start..stop`, and that range has been halved `j` times. Only the last
process of the chain has a range; all others wait for their child, and end
after it (`Inv`). So the last one prints, whatever the interleaving, and the
chain has one process for every halving.
-/

namespace OsInParts.BinarySearch

open Lib.Stdio Lib.Threads

variable {arr : List Int32} {target : Int32}

/-! ## The range -/

/-- `arr` is in non-decreasing order. -/
def NonDecreasing (arr : List Int32) : Prop := arr.Pairwise (· ≤ ·)

theorem NonDecreasing.le (h : NonDecreasing arr) {i j : Nat} (hij : i ≤ j) {x y : Int32}
    (hx : arr[i]? = some x) (hy : arr[j]? = some y) : x ≤ y := by
  obtain ⟨hi, rfl⟩ := List.getElem?_eq_some_iff.mp hx
  obtain ⟨hj, rfl⟩ := List.getElem?_eq_some_iff.mp hy
  rcases hij.eq_or_lt with rfl | hlt
  · exact Int32.le_refl _
  · exact List.pairwise_iff_getElem.mp h i j hi hj hlt

theorem mid_bounds {start stop : Int} (h : start ≤ stop) :
    start ≤ mid start stop ∧ mid start stop ≤ stop := by
  unfold mid
  omega

theorem readAt_eq {i : Int} {x : Int32} (h : readAt arr i = some x) :
    0 ≤ i ∧ arr[i.toNat]? = some x := by
  rw [readAt] at h
  split at h
  · exact ⟨‹_›, h⟩
  · cases h

/-- The range `start..stop` after `j` halvings. -/
structure Window (arr : List Int32) (target : Int32) (j : Nat) (start stop : Int) : Prop where
  low : 0 ≤ start
  high : stop < arr.length
  order : start ≤ stop + 1
  small : (stop - start + 1) * 2 ^ j ≤ arr.length
  has : target ∈ arr → ∃ i : Nat, start ≤ i ∧ i ≤ stop ∧ arr[i]? = some target

theorem window_main (arr : List Int32) (target : Int32) :
    Window arr target 0 0 (arr.length - 1) where
  low := Int.le_refl 0
  high := by omega
  order := by omega
  small := by simp
  has := by
    intro hmem
    obtain ⟨i, hi, heq⟩ := List.mem_iff_getElem.mp hmem
    exact ⟨i, by omega, by omega, List.getElem?_eq_some_iff.mpr ⟨hi, heq⟩⟩

/-- The middle of a range inside the array can be read. -/
theorem readAt_mid_isSome {start stop : Int}
    (h : start ≤ stop ∧ 0 ≤ start ∧ stop < arr.length) : (readAt arr (mid start stop)).isSome := by
  obtain ⟨hlow, hhigh⟩ := mid_bounds h.1
  have hlt : (mid start stop).toNat < arr.length := by omega
  rw [readAt, if_pos (by omega)]
  exact Option.isSome_of_eq_some (List.getElem?_eq_getElem hlt)

theorem Window.log {j : Nat} {start stop : Int} (h : Window arr target j start stop)
    (hle : start ≤ stop) : j ≤ Nat.log 2 arr.length := by
  have hone : (1 : Int) * 2 ^ j ≤ (stop - start + 1) * 2 ^ j :=
    Int.mul_le_mul_of_nonneg_right (by omega) (by positivity)
  have hpow : (2 : Int) ^ j ≤ arr.length := by
    have := h.small
    omega
  have hnat : 2 ^ j ≤ arr.length := by exact_mod_cast hpow
  exact Nat.le_log_of_pow_le (by decide) hnat

/-- Half of a range is half as long. -/
theorem Window.small_half {j : Nat} {start stop start' stop' : Int}
    (h : Window arr target j start stop)
    (hhalf : 2 * (stop' - start' + 1) ≤ stop - start + 1) :
    (stop' - start' + 1) * 2 ^ (j + 1) ≤ arr.length :=
  calc (stop' - start' + 1) * 2 ^ (j + 1) = 2 * (stop' - start' + 1) * 2 ^ j := by ring
    _ ≤ (stop - start + 1) * 2 ^ j := Int.mul_le_mul_of_nonneg_right hhalf (by positivity)
    _ ≤ arr.length := h.small

/-- Right of the middle, if the middle is too small. -/
theorem Window.right {j : Nat} {start stop : Int} {value : Int32}
    (h : Window arr target j start stop) (hsorted : NonDecreasing arr) (hle : start ≤ stop)
    (hread : readAt arr (mid start stop) = some value) (hlt : value < target) :
    Window arr target (j + 1) (mid start stop + 1) stop := by
  obtain ⟨hlow, hhigh⟩ := mid_bounds hle
  obtain ⟨hpos, hmid⟩ := readAt_eq hread
  refine ⟨by omega, h.high, by omega, h.small_half (by unfold mid; omega), fun hmem => ?_⟩
  obtain ⟨i, hi, hi', heq⟩ := h.has hmem
  refine ⟨i, ?_, hi', heq⟩
  by_contra hnot
  -- an index up to the middle would hold a value that is too small
  have hge : target ≤ value := hsorted.le (by omega) heq hmid
  exact Int32.not_le.mpr hlt hge

/-- Left of the middle, if the middle is too large. -/
theorem Window.left {j : Nat} {start stop : Int} {value : Int32}
    (h : Window arr target j start stop) (hsorted : NonDecreasing arr) (hle : start ≤ stop)
    (hread : readAt arr (mid start stop) = some value) (hne : value ≠ target)
    (hlt : ¬ value < target) : Window arr target (j + 1) start (mid start stop - 1) := by
  obtain ⟨hlow, hhigh⟩ := mid_bounds hle
  obtain ⟨hpos, hmid⟩ := readAt_eq hread
  have hend := h.high
  refine ⟨h.low, by omega, by omega, h.small_half (by unfold mid; omega), fun hmem => ?_⟩
  obtain ⟨i, hi, hi', heq⟩ := h.has hmem
  refine ⟨i, hi, ?_, heq⟩
  by_contra hnot
  -- an index from the middle on would hold a value that is too large
  have hle' : value ≤ target := hsorted.le (by omega) hmid heq
  exact hne (Int32.le_antisymm hle' (Int32.not_lt.mp hlt))

/-! ## The invariant -/

/-- The result is right. -/
def Message.Correct (arr : List Int32) (target : Int32) : Message → Prop
  | .notFound => target ∉ arr
  | .index i => 0 ≤ i ∧ arr[i.toNat]? = some target

/-- The last process of the chain, process `k`. -/
def LastOk (arr : List Int32) (target : Int32) (k : Nat) (printed : List (Nat × Message)) :
    Proc → Prop
  | .call start stop => printed = [] ∧ Window arr target k start stop
  | .probe start stop => printed = [] ∧ start ≤ stop ∧ Window arr target k start stop
  | .fork start stop =>
      printed = [] ∧ start ≤ stop ∧ Window arr target k start stop ∧
        readAt arr (mid start stop) ≠ some target
  | .child start stop =>
      printed = [] ∧ start ≤ stop ∧ (∃ j, k = j + 1 ∧ Window arr target j start stop) ∧
        readAt arr (mid start stop) ≠ some target
  | .wait _ => False
  | .exit status | .exited status =>
      status = 0 ∧ ∃ message, printed = [(k, message)] ∧ message.Correct arr target

/-- A process that has forked process `k + 1`. -/
def ParentOk (k : Nat) (next : Option Proc) : Proc → Prop
  | .wait pid => pid = k + 1
  | .exit status | .exited status => status = 0 ∧ ∃ status', next = some (.exited status')
  | _ => False

/-- **The chain invariant.** -/
structure Inv (arr : List Int32) (target : Int32) (s : State) : Prop where
  nonempty : 0 < s.procs.length
  short : s.procs.length ≤ Nat.log 2 arr.length + 2
  parent : ∀ k p, k + 1 < s.procs.length → s.procs[k]? = some p → ParentOk k s.procs[k + 1]? p
  last : ∀ k p, k + 1 = s.procs.length → s.procs[k]? = some p →
    LastOk arr target k s.printed p

theorem inv_initial (env : Env) (arr : List Int32) (target : Int32) :
    Inv arr target (initial env arr) where
  nonempty := by simp [initial]
  short := by simp [initial]
  parent := by
    intro k p hk
    simp [initial] at hk
  last := by
    intro k p hk hp
    obtain rfl : k = 0 := by simpa [initial] using hk
    obtain rfl : Proc.call 0 (arr.length - 1) = p := by simpa [initial] using hp
    exact ⟨rfl, window_main arr target⟩

/-- A parent that has ended sees its child ended for good. -/
theorem ParentOk.mono {k : Nat} {next : Option Proc} {p : Proc} (h : ParentOk k next p)
    {next' : Option Proc} (hnext : ∀ status, next = some (.exited status) → next' = next) :
    ParentOk k next' p := by
  cases p with
  | wait pid => exact h
  | exit status | exited status =>
      obtain ⟨hstatus, status', heq⟩ := h
      exact ⟨hstatus, status', (hnext status' heq).trans heq⟩
  | _ => exact h

/-- A step of a process that has not ended leaves the parents as they are. -/
theorem Inv.parent_set {s : State} (h : Inv arr target s) {k : Nat} {p q : Proc}
    (hp : s.procs[k]? = some p) (hlive : ∀ status, p ≠ .exited status) {i : Nat} {r : Proc}
    (hi : i + 1 < s.procs.length) (hne : i ≠ k) (hr : (s.procs.set k q)[i]? = some r) :
    ParentOk i (s.procs.set k q)[i + 1]? r := by
  rw [List.getElem?_set_ne (Ne.symm hne)] at hr
  apply (h.parent i r hi hr).mono
  intro status hexited
  by_cases hik : i + 1 = k
  · rw [hik, hp, Option.some.injEq] at hexited
    exact absurd hexited (hlive status)
  · exact List.getElem?_set_ne (Ne.symm hik)

/-- The last process takes a step that is not a fork. -/
theorem Inv.setLast {s s' : State} (h : Inv arr target s) {k : Nat} {p q : Proc}
    (hk : k + 1 = s.procs.length) (hp : s.procs[k]? = some p)
    (hlive : ∀ status, p ≠ .exited status) (hprocs : s'.procs = s.procs.set k q)
    (hq : LastOk arr target k s'.printed q) : Inv arr target s' where
  nonempty := by
    rw [hprocs, List.length_set]
    exact h.nonempty
  short := by
    rw [hprocs, List.length_set]
    exact h.short
  parent := by
    intro i r hi hr
    rw [hprocs, List.length_set] at hi
    rw [hprocs] at hr ⊢
    exact h.parent_set hp hlive hi (by omega) hr
  last := by
    intro i r hi hr
    rw [hprocs, List.length_set] at hi
    obtain rfl : i = k := by omega
    rw [hprocs, List.getElem?_set_self (by omega), Option.some.injEq] at hr
    exact hr ▸ hq

/-- A process that has forked takes a step. -/
theorem Inv.setParent {s s' : State} (h : Inv arr target s) {k : Nat} {p q : Proc}
    (hk : k + 1 < s.procs.length) (hp : s.procs[k]? = some p)
    (hlive : ∀ status, p ≠ .exited status) (hprocs : s'.procs = s.procs.set k q)
    (hprinted : s'.printed = s.printed) (hq : ParentOk k s.procs[k + 1]? q) :
    Inv arr target s' where
  nonempty := by
    rw [hprocs, List.length_set]
    exact h.nonempty
  short := by
    rw [hprocs, List.length_set]
    exact h.short
  parent := by
    intro i r hi hr
    rw [hprocs, List.length_set] at hi
    rw [hprocs] at hr ⊢
    by_cases hik : i = k
    · subst hik
      rw [List.getElem?_set_self (by omega), Option.some.injEq] at hr
      rw [List.getElem?_set_ne (by omega)]
      exact hr ▸ hq
    · exact h.parent_set hp hlive hi hik hr
  last := by
    intro i r hi hr
    rw [hprocs, List.length_set] at hi
    rw [hprocs, List.getElem?_set_ne (by omega)] at hr
    rw [hprinted]
    exact h.last i r hi hr

/-- The last process forks. -/
theorem Inv.fork {s : State} (h : Inv arr target s) {k : Nat} {start stop : Int}
    (hk : k + 1 = s.procs.length) (hp : s.procs[k]? = some (.fork start stop))
    (stdout : Streams Nat Marked) :
    Inv arr target
      { s with
        procs := s.procs.set k (.wait s.procs.length) ++ [.child start stop]
        stdout := stdout } := by
  obtain ⟨hnone, hle, hwindow, hmiss⟩ := h.last k _ hk hp
  have hlen : (s.procs.set k (.wait s.procs.length) ++ [Proc.child start stop]).length
      = s.procs.length + 1 := by
    rw [List.length_append, List.length_set, List.length_singleton]
  refine ⟨by dsimp only; omega, ?_, fun i r hi hr => ?_, fun i r hi hr => ?_⟩
  · have hlog := hwindow.log hle
    dsimp only
    -- the range is not empty, so it has not been halved too often
    omega
  · dsimp only at hi hr ⊢
    rw [hlen] at hi
    rw [List.getElem?_append_left (by rw [List.length_set]; omega)] at hr
    by_cases hik : i = k
    · subst hik
      rw [List.getElem?_set_self (by omega), Option.some.injEq] at hr
      subst hr
      exact hk.symm
    · rw [List.getElem?_append_left (by rw [List.length_set]; omega)]
      exact h.parent_set hp (by simp) (by omega) hik hr
  · dsimp only at hi hr ⊢
    rw [hlen] at hi
    obtain rfl : i = s.procs.length := by omega
    rw [List.getElem?_append_right (by rw [List.length_set])] at hr
    simp only [List.length_set, Nat.sub_self, List.getElem?_cons_zero, Option.some.injEq] at hr
    subst hr
    exact ⟨hnone, hle, ⟨k, hk.symm, hwindow⟩, hmiss⟩

theorem Inv.step {env : Env} (hfork : ∀ k, env.forkOk k = true) (hsorted : NonDecreasing arr)
    {s s' : State} {k : Nat} (h : Inv arr target s)
    (hs : binarySearch env arr target k s = some s') : Inv arr target s' := by
  obtain ⟨p, hp, hmoves⟩ := binarySearch_moves hs
  have hlt : k < s.procs.length := (List.getElem?_eq_some_iff.mp hp).1
  rcases Nat.lt_or_ge (k + 1) s.procs.length with hk | hge
  · -- a process that has a child only reaps it and exits
    have hparent := h.parent k p hk hp
    cases hmoves with
    | reap hchild =>
        obtain rfl := hparent
        exact h.setParent hk hp (by simp) rfl rfl ⟨rfl, _, hchild⟩
    | exit => exact h.setParent hk hp (by simp) rfl rfl hparent
    | _ => exact hparent.elim
  · have hk : k + 1 = s.procs.length := by omega
    -- the last process has the range
    have hlast := h.last k p hk hp
    cases hmoves with
    | missing hempty =>
        obtain ⟨hnone, hwindow⟩ := hlast
        refine h.setLast hk hp (by simp) rfl ⟨rfl, .notFound, by simp [hnone], fun hmem => ?_⟩
        obtain ⟨i, hi, hi', -⟩ := hwindow.has hmem
        -- the target would be in an empty range
        omega
    | enter hle => exact h.setLast hk hp (by simp) rfl ⟨hlast.1, hle, hlast.2⟩
    | found hread =>
        refine h.setLast hk hp (by simp) rfl ⟨rfl, .index _, ?_, readAt_eq hread⟩
        simp [hlast.1]
    | miss hread hne =>
        refine h.setLast hk hp (by simp) rfl ⟨hlast.1, hlast.2.1, hlast.2.2, ?_⟩
        rw [hread]
        simpa using hne
    | forked => exact h.fork hk hp _
    | unforked hfail => rw [hfork k] at hfail; cases hfail
    | right hread hless =>
        obtain ⟨hnone, hle, ⟨j, rfl, hwindow⟩, -⟩ := hlast
        exact h.setLast hk hp (by simp) rfl ⟨hnone, hwindow.right hsorted hle hread hless⟩
    | left hread hless =>
        obtain ⟨hnone, hle, ⟨j, rfl, hwindow⟩, hmiss⟩ := hlast
        refine h.setLast hk hp (by simp) rfl ⟨hnone, hwindow.left hsorted hle hread ?_ hless⟩
        rintro rfl
        exact hmiss hread
    | reap => exact hlast.elim
    | exit => exact h.setLast hk hp (by simp) rfl hlast

theorem inv_reachable {env : Env} (hfork : ∀ k, env.forkOk k = true)
    (hsorted : NonDecreasing arr) {s : State}
    (h : Reachable (binarySearch env arr target) (initial env arr) s) : Inv arr target s :=
  h.invariant (inv_initial env arr target) fun _ _ _ hI _ hs => hI.step hfork hsorted hs

/-- When a process has ended, so have all after it, and the last one has
printed. -/
theorem Inv.printed_of_exited {s : State} (h : Inv arr target s) {k status : Nat}
    (hk : s.procs[k]? = some (.exited status)) :
    ∃ message, s.printed = [(s.procs.length - 1, message)] ∧ message.Correct arr target := by
  have hlt : k < s.procs.length := (List.getElem?_eq_some_iff.mp hk).1
  generalize hd : s.procs.length - 1 - k = d
  -- by induction on how many processes come after
  induction d generalizing k status with
  | zero =>
      have hlast : k + 1 = s.procs.length := by omega
      obtain ⟨-, message, hprinted, hcorrect⟩ := h.last k _ hlast hk
      rw [show k = s.procs.length - 1 by omega] at hprinted
      exact ⟨message, hprinted, hcorrect⟩
  | succ d ih =>
      obtain ⟨-, status', hnext⟩ := h.parent k _ (by omega) hk
      exact ih hnext (by omega) (by omega)

/-- Nothing has been printed, or the last process has printed the result. -/
theorem Inv.prints {s : State} (h : Inv arr target s) :
    s.printed = [] ∨
      ∃ message, s.printed = [(s.procs.length - 1, message)] ∧ message.Correct arr target := by
  have hpos := h.nonempty
  obtain ⟨p, hp⟩ : ∃ p, s.procs[s.procs.length - 1]? = some p :=
    ⟨_, List.getElem?_eq_getElem (by omega)⟩
  have hlast := h.last _ p (by omega) hp
  cases p with
  | call | probe | fork | child => exact .inl hlast.1
  | wait => exact hlast.elim
  | exit | exited => exact .inr hlast.2

/-! ## Every search ends -/

/-- The steps a process can still cause, its child's included. -/
def Proc.rank : Proc → Nat
  | .call start stop => 6 * (stop - start + 1).toNat + 2
  | .probe start stop => 6 * (stop - start + 1).toNat + 1
  | .fork start stop => 6 * (stop - start + 1).toNat
  | .child start stop => 6 * (stop - start + 1).toNat - 3
  | .wait _ => 2
  | .exit _ => 1
  | .exited _ => 0

def State.rank (s : State) : Nat := (s.procs.map Proc.rank).sum

theorem rank_set {s s' : State} {k : Nat} {p q : Proc} (hp : s.procs[k]? = some p)
    (hprocs : s'.procs = s.procs.set k q) (hlt : q.rank < p.rank) : s'.rank < s.rank := by
  have hsum := sum_map_set Proc.rank hp q
  rw [State.rank, State.rank, hprocs]
  omega

/-- The range of a process that looks at its middle is not empty. -/
theorem Inv.le {s : State} (h : Inv arr target s) {k : Nat} {start stop : Int} {p : Proc}
    (hp : s.procs[k]? = some p)
    (hpc : p = .probe start stop ∨ p = .fork start stop ∨ p = .child start stop) :
    start ≤ stop ∧ 0 ≤ start ∧ stop < arr.length := by
  have hlt : k < s.procs.length := (List.getElem?_eq_some_iff.mp hp).1
  rcases Nat.lt_or_ge (k + 1) s.procs.length with hk | hge
  · have hparent := h.parent k p hk hp
    rcases hpc with rfl | rfl | rfl <;> exact hparent.elim
  · have hlast := h.last k p (by omega) hp
    rcases hpc with rfl | rfl | rfl
    · exact ⟨hlast.2.1, hlast.2.2.low, hlast.2.2.high⟩
    · exact ⟨hlast.2.1, hlast.2.2.1.low, hlast.2.2.1.high⟩
    · obtain ⟨-, hle, ⟨j, -, hwindow⟩, -⟩ := hlast
      exact ⟨hle, hwindow.low, hwindow.high⟩

theorem Inv.rank_lt {env : Env} {s s' : State} {k : Nat} (h : Inv arr target s)
    (hs : binarySearch env arr target k s = some s') : s'.rank < s.rank := by
  obtain ⟨p, hp, hmoves⟩ := binarySearch_moves hs
  cases hmoves with
  | missing => exact rank_set hp rfl (by simp only [Proc.rank]; omega)
  | enter => exact rank_set hp rfl (by simp only [Proc.rank]; omega)
  | found => exact rank_set hp rfl (by have := h.le hp (.inl rfl); simp only [Proc.rank]; omega)
  | miss => exact rank_set hp rfl (by simp only [Proc.rank]; omega)
  | forked =>
      have hrange := h.le hp (.inr (.inl rfl))
      have hsum := sum_map_set Proc.rank hp (.wait s.procs.length)
      simp only [State.rank, List.map_append, List.sum_append, List.map_cons, List.map_nil,
        List.sum_cons, List.sum_nil, Proc.rank] at hsum ⊢
      omega
  | unforked =>
      exact rank_set hp rfl (by have := h.le hp (.inr (.inl rfl)); simp only [Proc.rank]; omega)
  | right | left =>
      have hrange := h.le hp (.inr (.inr rfl))
      have hmid := mid_bounds hrange.1
      exact rank_set hp rfl (by simp only [Proc.rank]; omega)
  | reap => exact rank_set hp rfl (by simp [Proc.rank])
  | exit => exact rank_set hp rfl (by simp [Proc.rank])

/-- While a process has not ended, one can take a step: the last one, or the
one before those that have ended. -/
theorem Inv.progress {s : State} (h : Inv arr target s) (env : Env) :
    (∀ p ∈ s.procs, p = .exited 0) ∨ ∃ k, (binarySearch env arr target k s).isSome := by
  by_cases hstuck : ∃ k, (binarySearch env arr target k s).isSome
  · exact .inr hstuck
  -- if none can, all have ended, from the last process to the first
  have hall : ∀ d k p, k + d + 1 = s.procs.length → s.procs[k]? = some p → p = .exited 0 := by
    intro d
    induction d with
    | zero =>
        intro k p hk hp
        have hlast := h.last k p hk hp
        by_contra hlive
        apply hstuck
        refine ⟨k, ?_⟩
        unfold binarySearch
        rw [hp]
        cases p with
        | call start stop => dsimp only; split <;> rfl
        | probe start stop => simpa using readAt_mid_isSome (h.le hp (.inl rfl))
        | fork start stop => dsimp only; split <;> rfl
        | child start stop => simpa using readAt_mid_isSome (h.le hp (.inr (.inr rfl)))
        | wait pid => exact hlast.elim
        | exit status => rfl
        | exited status => exact absurd (hlast.1 ▸ rfl) hlive
    | succ d ih =>
        intro k p hk hp
        have hparent := h.parent k p (by omega) hp
        obtain ⟨next, hnext⟩ : ∃ next, s.procs[k + 1]? = some next :=
          ⟨_, List.getElem?_eq_getElem (by omega)⟩
        obtain rfl := ih (k + 1) next (by omega) hnext
        by_contra hlive
        apply hstuck
        refine ⟨k, ?_⟩
        unfold binarySearch
        rw [hp]
        cases p with
        | wait pid =>
            obtain rfl := hparent
            -- the child has ended, so `wait` returns
            simp [hnext]
        | exit status => rfl
        | exited status => exact absurd (hparent.1 ▸ rfl) hlive
        | _ => exact hparent.elim
  left
  intro p hp
  obtain ⟨k, hk, heq⟩ := List.mem_iff_getElem.mp hp
  exact hall (s.procs.length - 1 - k) k p (by omega) (List.getElem?_eq_some_iff.mpr ⟨hk, heq⟩)

/-- What holds in every state of a search. -/
structure Chain (arr : List Int32) (target : Int32) (s : State) : Prop where
  length : s.procs.length ≤ Nat.log 2 arr.length + 2
  /-- one result at most, printed by the last process of the chain -/
  prints : s.printed = [] ∨
    ∃ message, s.printed = [(s.procs.length - 1, message)] ∧ message.Correct arr target
  /-- at each of the two reads of `arr[mid]` -/
  reads : ∀ (k : Nat) (start stop : Int),
    s.procs[k]? = some (.probe start stop) ∨ s.procs[k]? = some (.child start stop) →
    start ≤ mid start stop ∧ mid start stop ≤ stop ∧ (readAt arr (mid start stop)).isSome
  /-- no process ends before the result is printed -/
  exits : ∀ k status : Nat, s.procs[k]? = some (.exited status) → s.printed ≠ []

/-- **The search**: for every sorted array, target and interleaving the chain
is short, reads inside its ranges and prints once, from its last process; and
every run is finite, with every process ended and the result printed. -/
theorem binary_search_chain {env : Env} (hfork : ∀ k, env.forkOk k = true) {arr : List Int32}
    (hsorted : NonDecreasing arr) (target : Int32) :
    (∀ s, Reachable (binarySearch env arr target) (initial env arr) s → Chain arr target s) ∧
    Ends (binarySearch env arr target) (fun _ _ => True)
      (fun s => (∀ p ∈ s.procs, p = .exited 0) ∧
        ∃ message, s.printed = [(s.procs.length - 1, message)] ∧ message.Correct arr target)
      (initial env arr) := by
  constructor
  · intro s hreach
    have h := inv_reachable hfork hsorted hreach
    refine ⟨h.short, h.prints, fun k start stop hpc => ?_, fun k status hk => ?_⟩
    · have hrange : start ≤ stop ∧ 0 ≤ start ∧ stop < arr.length := by
        rcases hpc with hp | hp
        · exact h.le hp (.inl rfl)
        · exact h.le hp (.inr (.inr rfl))
      obtain ⟨hlow, hhigh⟩ := mid_bounds hrange.1
      exact ⟨hlow, hhigh, readAt_mid_isSome hrange⟩
    · obtain ⟨message, hprinted, -⟩ := h.printed_of_exited hk
      rw [hprinted]
      exact List.cons_ne_nil _ _
  · apply Ends.rule (Inv arr target) State.rank
    · intro k s s' hI _ hs
      exact ⟨hI.step hfork hsorted hs, hI.rank_lt hs⟩
    · intro s hI
      rcases hI.progress env with hdone | ⟨k, hk⟩
      · left
        have hpos := hI.nonempty
        obtain ⟨p, hp⟩ : ∃ p, s.procs[0]? = some p := ⟨_, List.getElem?_eq_getElem hpos⟩
        obtain rfl := hdone p (List.mem_of_getElem? hp)
        exact ⟨hdone, hI.printed_of_exited hp⟩
      · exact .inr ⟨k, trivial, hk⟩
    · exact inv_initial env arr target

/-- Three processes look for 4 among 1, 2, 2 and 4. -/
theorem binary_search_chain_four :
    Ends (binarySearch { mode := .full, inputFlushes := false, forkOk := fun _ => true }
        [1, 2, 2, 4] 4) (fun _ _ => True)
      (fun s => (∀ p ∈ s.procs, p = .exited 0) ∧
        ∃ message, s.printed = [(s.procs.length - 1, message)] ∧
          message.Correct [1, 2, 2, 4] 4)
      (initial { mode := .full, inputFlushes := false, forkOk := fun _ => true } [1, 2, 2, 4]) :=
  (binary_search_chain (fun _ => rfl) (by unfold NonDecreasing; decide) 4).2

end OsInParts.BinarySearch
