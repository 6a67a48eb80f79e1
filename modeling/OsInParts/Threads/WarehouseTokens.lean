import OsInParts.Threads.WarehouseSafety

/-!
# WarehouseTokens — the semaphores against the inventory, and progress

The comments in the source want `empty` to count the free spaces and `full`
the products. A manager keeps to this only while it removes one product for
the one token it took: from the second product of a round on, `full` is more
than the inventory. `OneProduct` is the side condition that no manager starts
on a second product, and under it the inventory is exactly the `full` tokens
plus the tokens in flight that stand for a product (`Balanced`).

The drift cannot block everybody: the tokens themselves are never lost
(`Inv.tokens`), so with no token in flight one of the semaphores is positive.
-/

namespace OsInParts.Warehouse

open Lib Lib.Threads

variable {T M : Nat}

/-- No thread is between its `sem_wait` and the matching `sem_post`. -/
def Quiescent (s : State T M) : Prop := ∀ o, (s.locals o).token = 0

/-! ## One product for one token -/

/-- About to enter the loop body for a second product. -/
def Manager.secondProduct (count : Int) : Manager → Bool
  | .loop products i => i < products && 0 < count && i != 0
  | _ => false

/-- The manager that moves does not start on a second product. -/
def OneProduct : Event T M → State T M → Prop
  | .truck _ _, _ => True
  | .manager j _, s => (s.managers j).secondProduct s.count = false

instance : (e : Event T M) → (s : State T M) → Decidable (OneProduct e s)
  | .truck _ _, _ => isTrue trivial
  | .manager _ _, _ => inferInstanceAs (Decidable (_ = false))

def Manager.FirstProduct : Manager → Prop
  | .clear _ i | .advanceOut _ i | .decrement _ i => i = 0
  | _ => True

/-- A manager in the loop body is at its first product. -/
def Local.FirstProduct : Local → Prop
  | .truck _ => True
  | .manager m => m.FirstProduct

/-- The inventory is what the `full` tokens say: posted, on their way, or
taken by a manager that has not removed its product yet. -/
structure Balanced (s : State T M) : Prop where
  stock : s.count = s.full + tally (fun _ => Local.stocked) s.locals
  first : ∀ o, (s.locals o).FirstProduct

/-- What a step of thread `o` does to this balance. -/
structure Even (o : Owner T M) (s s' : State T M) : Prop where
  locals : s'.locals = Function.update s.locals o (s'.locals o)
  stock : s'.count - s'.full - (s'.locals o).stocked
    = s.count - s.full - (s.locals o).stocked
  first : (s'.locals o).FirstProduct

/-- The same from the mover's place before and after. -/
theorem Even.of {o : Owner T M} {s s' : State T M} {l l' : Local}
    (hl : s.locals o = l) (hl' : s'.locals = Function.update s.locals o l')
    (stock : s'.count - s'.full - l'.stocked = s.count - s.full - l.stocked)
    (first : l'.FirstProduct) : Even o s s' := by
  have hself : s'.locals o = l' := by rw [hl', Function.update_self]
  subst hl
  subst hself
  exact ⟨hl', stock, first⟩

theorem deliveryTruck_even {i : Fin T} {rand : Nat} {s s' : State T M}
    (hs : deliveryTruck i rand s = some s') : Even (.truck i) s s' := by
  unfold deliveryTruck at hs
  split at hs
  case h_1 hpc =>
    cases hs
    exact .of (locals_truck hpc) (locals_setTruck s i _) rfl trivial
  case h_2 hpc =>
    split at hs <;> cases hs <;>
      exact .of (locals_truck hpc) (locals_setTruck s i _) rfl trivial
  case h_3 hpc =>
    split at hs <;> cases hs
    exact .of (locals_truck hpc) (locals_setTruck _ i _) rfl trivial
  case h_4 hpc =>
    split at hs <;> cases hs
    exact .of (locals_truck hpc) (locals_setTruck _ i _) rfl trivial
  case h_5 hpc =>
    cases hs
    exact .of (locals_truck hpc) (locals_setTruck _ i _) rfl trivial
  case h_6 hpc =>
    cases hs
    exact .of (locals_truck hpc) (locals_setTruck _ i _) rfl trivial
  case h_7 hpc =>
    cases hs
    refine .of (locals_truck hpc) (locals_setTruck _ i _) ?_ trivial
    show s.count + 1 - s.full - ((1 : Nat) : Int) = s.count - s.full - ((0 : Nat) : Int)
    omega
  case h_8 hpc =>
    cases hs
    exact .of (locals_truck hpc) (locals_setTruck _ i _) rfl trivial
  case h_9 hpc =>
    cases hs
    refine .of (locals_truck hpc) (locals_setTruck _ i _) ?_ trivial
    show s.count - ((s.full + 1 : Nat) : Int) - ((0 : Nat) : Int)
      = s.count - s.full - ((1 : Nat) : Int)
    omega
  case h_10 hpc =>
    dsimp only at hs
    split at hs <;> cases hs <;>
      exact .of (locals_truck hpc) (locals_setTruck _ i _) rfl trivial
  case h_11 hpc =>
    cases hs
    exact .of (locals_truck hpc) (locals_setTruck s i _) rfl trivial
  case h_12 => cases hs

/-- A token that stands for a product finds one. -/
theorem Balanced.count_pos {s : State T M} (h : Balanced s) {o : Owner T M}
    (ho : 0 < (s.locals o).stocked) : 0 < s.count := by
  have hle := le_tally (fun _ => Local.stocked) s.locals o
  have hstock := h.stock
  omega

theorem storageManager_even {j : Fin M} {rand : Nat} {s s' : State T M}
    (h : Balanced s) (hpos : (s.managers j).Positive) (hone : OneProduct (.manager j rand) s)
    (hs : storageManager j rand s = some s') : Even (.manager j) s s' := by
  have hfirst := h.first (.manager j)
  have hcount : 0 < (s.managers j).stocked → 0 < s.count :=
    h.count_pos (o := .manager j)
  unfold storageManager at hs
  split at hs
  case h_1 hpc =>
    cases hs
    exact .of (locals_manager hpc) (locals_setManager s j _) rfl trivial
  case h_2 hpc =>
    split at hs <;> cases hs
    rename_i hfull
    refine .of (locals_manager hpc) (locals_setManager _ j _) ?_ trivial
    show s.count - ((s.full - 1 : Nat) : Int) - ((1 : Nat) : Int)
      = s.count - s.full - ((0 : Nat) : Int)
    omega
  case h_3 hpc =>
    split at hs <;> cases hs
    exact .of (locals_manager hpc) (locals_setManager _ j _) rfl trivial
  case h_4 hpc =>
    rw [hpc] at hcount
    rw [if_pos (hcount Nat.zero_lt_one)] at hs
    cases hs
    exact .of (locals_manager hpc) (locals_setManager s j _) rfl trivial
  case h_5 products i hpc =>
    rw [hpc] at hcount hpos
    rcases Nat.eq_zero_or_pos i with rfl | hi
    · -- the first product of the round is there
      rw [if_pos ⟨hpos, hcount Nat.zero_lt_one⟩] at hs
      cases hs
      exact .of (locals_manager hpc) (locals_setManager s j _) rfl rfl
    · have hstop : ¬ (i < products ∧ 0 < s.count) := by
        rintro ⟨hlt, hcount⟩
        simp [OneProduct, hpc, Manager.secondProduct, hlt, hcount] at hone
        omega
      rw [if_neg hstop] at hs
      cases hs
      refine .of (locals_manager hpc) (locals_setManager s j _) ?_ trivial
      show s.count - s.full - ((0 : Nat) : Int)
        = s.count - s.full - ((if i = 0 then 1 else 0 : Nat) : Int)
      rw [if_neg (by omega)]
  case h_6 hpc =>
    cases hs
    rw [locals_manager hpc] at hfirst
    exact .of (locals_manager hpc) (locals_setManager _ j _) rfl hfirst
  case h_7 hpc =>
    cases hs
    rw [locals_manager hpc] at hfirst
    exact .of (locals_manager hpc) (locals_setManager _ j _) rfl hfirst
  case h_8 products i hpc =>
    cases hs
    rw [locals_manager hpc] at hfirst
    refine .of (locals_manager hpc) (locals_setManager _ j _) ?_ trivial
    show s.count - 1 - s.full - ((if i + 1 = 0 then 1 else 0 : Nat) : Int)
      = s.count - s.full - ((if i = 0 then 1 else 0 : Nat) : Int)
    have hzero : i = 0 := hfirst
    rw [if_neg (by omega), if_pos hzero]
    omega
  case h_9 hpc =>
    cases hs
    exact .of (locals_manager hpc) (locals_setManager s j _) rfl trivial
  case h_10 hpc =>
    cases hs
    exact .of (locals_manager hpc) (locals_setManager _ j _) rfl trivial
  case h_11 hpc =>
    cases hs
    exact .of (locals_manager hpc) (locals_setManager _ j _) rfl trivial
  case h_12 hpc =>
    cases hs
    exact .of (locals_manager hpc) (locals_setManager s j _) rfl trivial

theorem Balanced.step {o : Owner T M} {s s' : State T M} (h : Balanced s) (he : Even o s s') :
    Balanced s' := by
  have hstocked := tally_update (fun _ => Local.stocked) s.locals o (s'.locals o)
  rw [← he.locals] at hstocked
  constructor
  · have h1 := h.stock
    have h2 := he.stock
    omega
  · intro o'
    by_cases ho : o' = o
    · rw [ho]
      exact he.first
    · rw [he.locals, Function.update_of_ne ho]
      exact h.first o'

theorem balanced_initial (past : Int32) : Balanced (initial T M past) where
  stock := by
    rw [tally_eq_zero (fun o => by cases o <;> rfl)]
    rfl
  first := fun o => by cases o <;> exact trivial

/-- The balance holds wherever a run of one-product rounds gets. -/
theorem balanced_run {past : Int32} {s : State T M}
    (h : Run step OneProduct (initial T M past) s) : Inv s ∧ Balanced s := by
  apply h.invariant ⟨inv_initial past, balanced_initial past⟩
  rintro e s s' ⟨hinv, hbal⟩ hone hs
  refine ⟨inv_step hinv hs, ?_⟩
  cases e with
  | truck i rand => exact hbal.step (deliveryTruck_even hs)
  | manager j rand =>
      exact hbal.step (storageManager_even hbal (hinv.positive (.manager j)) hone hs)

/-! ## A blocked thread -/

/-- A truck before `sem_wait` is blocked exactly on `empty = 0`. -/
theorem deliveryTruck_blocked {s : State T M} {i : Fin T} {rand products : Nat}
    (hpc : s.trucks i = .waitEmpty products) :
    deliveryTruck i rand s = none ↔ s.empty = 0 := by
  simp [deliveryTruck, hpc]

/-- A manager before `sem_wait` is blocked exactly on `full = 0`. -/
theorem storageManager_blocked {s : State T M} {j : Fin M} {rand products : Nat}
    (hpc : s.managers j = .waitFull products) :
    storageManager j rand s = none ↔ s.full = 0 := by
  simp [storageManager, hpc]

/-- What the source's comments promise where no thread is between its two
semaphore operations. -/
def SemaphoresMatch (s : State T M) : Prop :=
  (s.full : Int) = s.count ∧ (s.empty : Int) = bufferSize - s.count ∧
    (∀ i rand products, s.trucks i = .waitEmpty products →
      deliveryTruck i rand s = none → s.count = bufferSize) ∧
    (∀ j rand products, s.managers j = .waitFull products →
      storageManager j rand s = none → s.count = 0)

/-- **The semaphores match the inventory** in every run in which no manager
removes a second product in a round. -/
theorem semaphores_match {past : Int32} {s : State T M}
    (h : Run step OneProduct (initial T M past) s) (hq : Quiescent s) : SemaphoresMatch s := by
  obtain ⟨hinv, hbal⟩ := balanced_run h
  have htokens := hinv.tokens
  rw [tally_eq_zero hq] at htokens
  have hstock := hbal.stock
  rw [tally_eq_zero (fun o => Nat.le_zero.mp (hq o ▸ stocked_le_token _))] at hstock
  refine ⟨by omega, by omega, fun i rand products hpc hblocked => ?_,
    fun j rand products hpc hblocked => ?_⟩
  · rw [deliveryTruck_blocked hpc] at hblocked
    omega
  · rw [storageManager_blocked hpc] at hblocked
    omega

/-- A truck delivers two products, and the manager that wants one of them has
put its token back. -/
def onePerRound : List (Event 1 1) :=
  List.replicate 17 (.truck 0 1) ++ List.replicate 12 (.manager 0 0)

theorem semaphores_match_sample :
    ∃ s : State 1 1, exec (guarded step OneProduct) (initial 1 1 0) onePerRound = some s ∧
      Quiescent s ∧ SemaphoresMatch s :=
  have hq : ∀ o, ((exec (guarded step OneProduct) (initial 1 1 0) onePerRound).elim 0
      fun s => (s.locals o).token) = 0 := by decide +kernel
  ⟨_, rfl, hq, semaphores_match (Run.exec .start onePerRound rfl) hq⟩

/-- The manager that wants two takes one token for both. -/
def twoPerRound : List (Event 1 1) :=
  List.replicate 17 (.truck 0 1) ++ List.replicate 16 (.manager 0 1)

/-- One round with two products leaves `full` at one and the warehouse empty. -/
theorem semaphores_drift :
    ¬ ∀ (T M : Nat) (past : Int32) (s : State T M), Reachable step (initial T M past) s →
      Quiescent s → SemaphoresMatch s := by
  intro hclaim
  have hq : ∀ o, ((exec step (initial 1 1 0) twoPerRound).elim 0
      fun s => (s.locals o).token) = 0 := by decide +kernel
  have hmatch := hclaim 1 1 0 _ (Reachable.exec .start twoPerRound rfl) hq
  have hfull := hmatch.1
  revert hfull
  decide +kernel

/-! ## Progress -/

/-- A truck that cannot move has exited, or is before one of the two waits. -/
theorem deliveryTruck_stuck {s : State T M} {i : Fin T} {rand : Nat}
    (h : deliveryTruck i rand s = none) :
    s.trucks i = .exited ∨ (∃ products, s.trucks i = .waitEmpty products ∧ s.empty = 0) ∨
      (∃ products, s.trucks i = .lock products ∧ s.mutex ≠ none) := by
  cases hpc : s.trucks i with
  | exited => exact .inl rfl
  | waitEmpty products => exact .inr (.inl ⟨products, rfl, (deliveryTruck_blocked hpc).mp h⟩)
  | lock products =>
      refine .inr (.inr ⟨products, rfl, ?_⟩)
      simpa [deliveryTruck, hpc] using h
  | check products =>
      simp only [deliveryTruck, hpc] at h
      split at h <;> cases h
  | record =>
      simp only [deliveryTruck, hpc] at h
      split at h <;> cases h
  | _ => simp [deliveryTruck, hpc] at h

/-- A manager that cannot move is before one of the two waits. -/
theorem storageManager_stuck {s : State T M} {j : Fin M} {rand : Nat}
    (h : storageManager j rand s = none) :
    (∃ products, s.managers j = .waitFull products ∧ s.full = 0) ∨
      (∃ products, s.managers j = .lock products ∧ s.mutex ≠ none) := by
  cases hpc : s.managers j with
  | waitFull products => exact .inl ⟨products, rfl, (storageManager_blocked hpc).mp h⟩
  | lock products =>
      refine .inr ⟨products, rfl, ?_⟩
      simpa [storageManager, hpc] using h
  | test products =>
      simp only [storageManager, hpc] at h
      split at h <;> cases h
  | loop products i =>
      simp only [storageManager, hpc] at h
      split at h <;> cases h
  | _ => simp [storageManager, hpc] at h

/-- If nobody can move, nobody holds the mutex: its owner could. -/
theorem mutex_free_of_stuck {s : State T M} (h : Inv s) (hstuck : ∀ e, step e s = none) :
    s.mutex = none := by
  refine free_of_outside h.owner fun o => ?_
  cases o with
  | truck i =>
      rcases deliveryTruck_stuck (hstuck (.truck i 0)) with hpc | ⟨_, hpc, _⟩ | ⟨_, hpc, _⟩ <;>
        (rw [locals_truck hpc]; rfl)
  | manager j =>
      rcases storageManager_stuck (hstuck (.manager j 0)) with ⟨_, hpc, _⟩ | ⟨_, hpc, _⟩ <;>
        (rw [locals_manager hpc]; rfl)

/-- If nobody can move, nobody holds a token either. -/
theorem quiescent_of_stuck {s : State T M} (h : Inv s) (hstuck : ∀ e, step e s = none) :
    Quiescent s := by
  have hfree := mutex_free_of_stuck h hstuck
  intro o
  cases o with
  | truck i =>
      rcases deliveryTruck_stuck (hstuck (.truck i 0)) with hpc | ⟨_, hpc, _⟩ | ⟨_, _, hheld⟩
      · rw [locals_truck hpc]; rfl
      · rw [locals_truck hpc]; rfl
      · exact absurd hfree hheld
  | manager j =>
      rcases storageManager_stuck (hstuck (.manager j 0)) with ⟨_, hpc, _⟩ | ⟨_, _, hheld⟩
      · rw [locals_manager hpc]; rfl
      · exact absurd hfree hheld

/-- **No deadlock**: with at least one manager, while some truck has not
finished some thread can take its next step. -/
theorem warehouse_progress {past : Int32} {s : State T M} (hM : 0 < M)
    (h : Reachable step (initial T M past) s) {i : Fin T} (hi : s.trucks i ≠ .exited) :
    ∃ e, (step e s).isSome := by
  by_contra hnone
  have hstuck : ∀ e, step e s = none := by
    intro e
    by_contra hsome
    exact hnone ⟨e, Option.isSome_iff_ne_none.mpr hsome⟩
  have hinv := inv_reachable h
  have hfree := mutex_free_of_stuck hinv hstuck
  have hempty : s.empty = 0 := by
    rcases deliveryTruck_stuck (hstuck (.truck i 0)) with hpc | ⟨_, _, hzero⟩ | ⟨_, _, hheld⟩
    · exact absurd hpc hi
    · exact hzero
    · exact absurd hfree hheld
  have hfull : s.full = 0 := by
    rcases storageManager_stuck (hstuck (.manager ⟨0, hM⟩ 0)) with ⟨_, _, hzero⟩ | ⟨_, _, hheld⟩
    · exact hzero
    · exact absurd hfree hheld
  have htokens := hinv.tokens
  rw [tally_eq_zero (quiescent_of_stuck hinv hstuck), hempty, hfull] at htokens
  simp at htokens

/-- A truck that has delivered its first product. -/
theorem warehouse_progress_sample :
    ∃ s : State 1 1, exec step (initial 1 1 0) (List.replicate 9 (.truck 0 0)) = some s ∧
      ∃ e, (step e s).isSome :=
  ⟨_, rfl, warehouse_progress Nat.zero_lt_one
    (Reachable.exec .start (List.replicate 9 (.truck 0 0)) rfl) (i := 0) (by decide +kernel)⟩

end OsInParts.Warehouse
