import Mathlib.Data.Fintype.Sum
import Mathlib.Tactic.DeriveFintype
import OsInParts.Lib.Ring
import OsInParts.Threads.Warehouse

/-!
# WarehouseSafety — the buffer is never overrun and never underrun

The semaphores do not count the inventory: a manager takes one `full` token,
removes up to three products, and gives one `empty` token back. What holds
is weaker and enough:

* the two semaphores and the tokens in flight always add up to
  `BUFFER_SIZE` (`Inv.tokens`);
* the inventory is at most the `full` tokens, posted or on their way, and
  those taken by managers that have not removed anything yet (`Inv.stock`):
  a manager that gives its token up has removed a product or found none.

So a truck that holds an `empty` token sees fewer than `BUFFER_SIZE`
products. Inside a critical section the buffer, `in`, `out` and `count` are
out of step in a way that depends on the owner's statement: `Shape` says how
for each `Phase`.
-/

namespace OsInParts.Warehouse

open Lib Lib.Threads

variable {T M : Nat}

/-! ## Threads, uniformly -/

deriving instance Fintype for Owner

/-- Where a thread of either kind is. -/
inductive Local where
  | truck (t : Truck)
  | manager (m : Manager)

def State.locals (s : State T M) : Owner T M → Local
  | .truck i => .truck (s.trucks i)
  | .manager j => .manager (s.managers j)

def Truck.token : Truck → Nat
  | .lock _ | .fill _ | .advanceIn _ | .increment _ | .unlock _ | .postFull _ => 1
  | _ => 0

def Manager.token : Manager → Nat
  | .start | .waitFull _ | .sleep => 0
  | _ => 1

/-- A semaphore token in the thread's hands: taken and not given back. -/
def Local.token : Local → Nat
  | .truck t => t.token
  | .manager m => m.token

def Truck.stocked : Truck → Nat
  | .unlock _ | .postFull _ => 1
  | _ => 0

def Manager.stocked : Manager → Nat
  | .lock _ | .test _ => 1
  | .loop _ i | .clear _ i | .advanceOut _ i | .decrement _ i => if i = 0 then 1 else 0
  | _ => 0

/-- A token that stands for a product: a truck has delivered and not yet
posted, or a manager has been let in and not yet removed anything. -/
def Local.stocked : Local → Nat
  | .truck t => t.stocked
  | .manager m => m.stocked

def Truck.inside : Truck → Bool
  | .fill _ | .advanceIn _ | .increment _ | .unlock _ => true
  | _ => false

def Manager.inside : Manager → Bool
  | .start | .waitFull _ | .lock _ | .postEmpty | .sleep => false
  | _ => true

/-- Between `pthread_mutex_lock` and `pthread_mutex_unlock`. -/
def Local.inside : Local → Bool
  | .truck t => t.inside
  | .manager m => m.inside

def Manager.Positive : Manager → Prop
  | .waitFull p | .lock p | .test p | .loop p _ | .clear p _ | .advanceOut p _
  | .decrement p _ => 0 < p
  | _ => True

/-- A manager always wants at least one product. -/
def Local.Positive : Local → Prop
  | .truck _ => True
  | .manager m => m.Positive

/-- How far the owner of the mutex is with its update of the buffer. -/
inductive Phase where
  | steady
  | written
  | inAdvanced
  | removing
  | cleared
  | outAdvanced

def Truck.phase : Truck → Phase
  | .advanceIn _ => .written
  | .increment _ => .inAdvanced
  | _ => .steady

def Manager.phase : Manager → Phase
  | .clear _ _ => .removing
  | .advanceOut _ _ => .cleared
  | .decrement _ _ => .outAdvanced
  | _ => .steady

def Local.phase : Local → Phase
  | .truck t => t.phase
  | .manager m => m.phase

/-- The buffer with its three indices and the two product counters. -/
structure Buffer where
  cells : Fin bufferSize → Int
  count : Int
  inPos : Fin bufferSize
  out : Fin bufferSize
  delivered : Nat
  removed : Nat

def State.ring (s : State T M) : Buffer :=
  { cells := s.buffer, count := s.count, inPos := s.inPos, out := s.out,
    delivered := s.delivered, removed := s.removed }

/-- The statements that touch the buffer, by the owner's phase before and
after. -/
inductive BufferStep : Phase → Buffer → Phase → Buffer → Prop where
  | idle (b) : BufferStep .steady b .steady b
  | fill (b : Buffer) :
      BufferStep .steady b .written
        { b with
          cells := Function.update b.cells b.inPos 1
          delivered := b.delivered + 1 }
  | advanceIn (b : Buffer) :
      BufferStep .written b .inAdvanced { b with inPos := nextPos b.inPos }
  | increment (b : Buffer) :
      BufferStep .inAdvanced b .steady { b with count := b.count + 1 }
  | begin (b : Buffer) (h : 0 < b.count) : BufferStep .steady b .removing b
  | clear (b : Buffer) :
      BufferStep .removing b .cleared
        { b with
          cells := Function.update b.cells b.out 0
          removed := b.removed + 1 }
  | advanceOut (b : Buffer) :
      BufferStep .cleared b .outAdvanced { b with out := nextPos b.out }
  | decrement (b : Buffer) :
      BufferStep .outAdvanced b .steady { b with count := b.count - 1 }

theorem BufferStep.count_eq {φ φ' : Phase} {b b' : Buffer} (h : BufferStep φ b φ' b')
    (hφ : φ' = .written) : b'.count = b.count := by
  cases h <;> first | rfl | cases hφ

theorem BufferStep.eq_of_steady {φ φ' : Phase} {b b' : Buffer} (h : BufferStep φ b φ' b')
    (h1 : φ = .steady) (h2 : φ' = .steady) : b' = b := by
  cases h <;> first | rfl | (cases h1; done) | cases h2

/-- **Everything a step of thread `o` can do.** -/
structure Effect (o : Owner T M) (s s' : State T M) : Prop where
  locals : s'.locals = Function.update s.locals o (s'.locals o)
  tokens : s'.empty + s'.full + (s'.locals o).token
    = s.empty + s.full + (s.locals o).token
  stock : s'.count ≤ 0 ∨ s'.count - s'.full - (s'.locals o).stocked
    ≤ s.count - s.full - (s.locals o).stocked
  positive : (s.locals o).Positive → (s'.locals o).Positive
  locking : Locking o (s.locals o).inside s.mutex (s'.locals o).inside s'.mutex
  ring : BufferStep (s.locals o).phase s.ring (s'.locals o).phase s'.ring

theorem locals_truck {s : State T M} {i : Fin T} {t : Truck} (h : s.trucks i = t) :
    s.locals (.truck i) = .truck t := congrArg Local.truck h

theorem locals_manager {s : State T M} {j : Fin M} {m : Manager} (h : s.managers j = m) :
    s.locals (.manager j) = .manager m := congrArg Local.manager h

@[simp] theorem locals_setTruck (s : State T M) (i : Fin T) (t : Truck) :
    (s.setTruck i t).locals = Function.update s.locals (.truck i) (.truck t) := by
  funext o
  cases o with
  | truck k =>
      by_cases h : k = i
      · subst h; simp [State.locals, State.setTruck]
      · simp [State.locals, State.setTruck, h]
  | manager j => simp [State.locals, State.setTruck]

@[simp] theorem locals_setManager (s : State T M) (j : Fin M) (m : Manager) :
    (s.setManager j m).locals = Function.update s.locals (.manager j) (.manager m) := by
  funext o
  cases o with
  | truck i => simp [State.locals, State.setManager]
  | manager k =>
      by_cases h : k = j
      · subst h; simp [State.locals, State.setManager]
      · simp [State.locals, State.setManager, h]

/-- An effect from the mover's place before and after. -/
theorem Effect.of {o : Owner T M} {s s' : State T M} {l l' : Local}
    (hl : s.locals o = l) (hl' : s'.locals = Function.update s.locals o l')
    (tokens : s'.empty + s'.full + l'.token = s.empty + s.full + l.token)
    (stock : s'.count ≤ 0 ∨ s'.count - s'.full - l'.stocked ≤ s.count - s.full - l.stocked)
    (positive : l.Positive → l'.Positive)
    (locking : Locking o l.inside s.mutex l'.inside s'.mutex)
    (ring : BufferStep l.phase s.ring l'.phase s'.ring) :
    Effect o s s' := by
  have hself : s'.locals o = l' := by rw [hl', Function.update_self]
  subst hl
  subst hself
  exact ⟨hl', tokens, stock, positive, locking, ring⟩

/-! ## The effect of each statement -/

theorem deliveryTruck_effect {i : Fin T} {rand : Nat} {s s' : State T M}
    (hs : deliveryTruck i rand s = some s') : Effect (.truck i) s s' := by
  unfold deliveryTruck at hs
  split at hs
  case h_1 hpc =>
    cases hs
    exact .of (locals_truck hpc) (locals_setTruck s i _) rfl (.inr le_rfl) id
      (.outside _) (.idle _)
  case h_2 hpc =>
    split at hs <;> cases hs <;>
      exact .of (locals_truck hpc) (locals_setTruck s i _) rfl (.inr le_rfl) id
        (.outside _) (.idle _)
  case h_3 products hpc =>
    split at hs <;> cases hs
    refine .of (locals_truck hpc) (locals_setTruck _ i _) ?_ (.inr le_rfl) id
      (.outside _) (.idle _)
    show s.empty - 1 + s.full + 1 = s.empty + s.full + 0
    omega
  case h_4 hpc =>
    split at hs <;> cases hs
    rename_i hfree
    refine .of (locals_truck hpc) (locals_setTruck _ i _) rfl (.inr le_rfl) id
      ?_ (.idle _)
    rw [hfree]
    exact .lock
  case h_5 hpc =>
    cases hs
    exact .of (locals_truck hpc) (locals_setTruck _ i _) rfl (.inr le_rfl) id
      (.keep _) (.fill _)
  case h_6 hpc =>
    cases hs
    exact .of (locals_truck hpc) (locals_setTruck _ i _) rfl (.inr le_rfl) id
      (.keep _) (.advanceIn _)
  case h_7 hpc =>
    cases hs
    refine .of (locals_truck hpc) (locals_setTruck _ i _) rfl (.inr ?_) id
      (.keep _) (.increment _)
    show s.count + 1 - s.full - ((1 : Nat) : Int) ≤ s.count - s.full - ((0 : Nat) : Int)
    omega
  case h_8 hpc =>
    cases hs
    exact .of (locals_truck hpc) (locals_setTruck _ i _) rfl (.inr le_rfl) id
      (.unlock _) (.idle _)
  case h_9 hpc =>
    cases hs
    refine .of (locals_truck hpc) (locals_setTruck _ i _) ?_ (.inr ?_) id
      (.outside _) (.idle _)
    · show s.empty + (s.full + 1) + 0 = s.empty + s.full + 1
      omega
    · show s.count - ((s.full + 1 : Nat) : Int) - ((0 : Nat) : Int)
        ≤ s.count - s.full - ((1 : Nat) : Int)
      omega
  case h_10 hpc =>
    dsimp only at hs
    split at hs <;> cases hs <;>
      exact .of (locals_truck hpc) (locals_setTruck _ i _) rfl (.inr le_rfl) id
        (.outside _) (.idle _)
  case h_11 hpc =>
    cases hs
    exact .of (locals_truck hpc) (locals_setTruck s i _) rfl (.inr le_rfl) id
      (.outside _) (.idle _)
  case h_12 => cases hs

theorem storageManager_effect {j : Fin M} {rand : Nat} {s s' : State T M}
    (hpos : (s.managers j).Positive)
    (hs : storageManager j rand s = some s') : Effect (.manager j) s s' := by
  unfold storageManager at hs
  split at hs
  case h_1 hpc =>
    cases hs
    exact .of (locals_manager hpc) (locals_setManager s j _) rfl (.inr le_rfl)
      (fun _ => Nat.succ_pos _) (.outside _) (.idle _)
  case h_2 products hpc =>
    split at hs <;> cases hs
    rename_i hfull
    refine .of (locals_manager hpc) (locals_setManager _ j _) ?_ (.inr ?_) id
      (.outside _) (.idle _)
    · show s.empty + (s.full - 1) + 1 = s.empty + s.full + 0
      omega
    · show s.count - ((s.full - 1 : Nat) : Int) - ((1 : Nat) : Int)
        ≤ s.count - s.full - ((0 : Nat) : Int)
      omega
  case h_3 hpc =>
    split at hs <;> cases hs
    rename_i hfree
    refine .of (locals_manager hpc) (locals_setManager _ j _) rfl (.inr le_rfl) id
      ?_ (.idle _)
    rw [hfree]
    exact .lock
  case h_4 hpc =>
    split at hs <;> cases hs
    · exact .of (locals_manager hpc) (locals_setManager s j _) rfl (.inr le_rfl) id
        (.keep _) (.idle _)
    · rename_i hempty
      -- the token is given up on an empty warehouse
      exact .of (locals_manager hpc) (locals_setManager s j _) rfl (.inl (not_lt.mp hempty))
        (fun _ => trivial) (.keep _) (.idle _)
  case h_5 products i hpc =>
    split at hs <;> cases hs
    · rename_i hmore
      exact .of (locals_manager hpc) (locals_setManager s j (.clear products i)) rfl
        (.inr le_rfl) (fun h => h) (.keep _) (.begin _ hmore.2)
    · rename_i hstop
      refine .of (locals_manager hpc) (locals_setManager s j _) rfl ?_ (fun _ => trivial)
        (.keep _) (.idle _)
      rw [hpc] at hpos
      rcases Nat.eq_zero_or_pos i with rfl | hi
      · exact .inl (not_lt.mp fun h => hstop ⟨hpos, h⟩)
      · refine .inr (le_of_eq ?_)
        show s.count - s.full - ((0 : Nat) : Int)
          = s.count - s.full - ((if i = 0 then 1 else 0 : Nat) : Int)
        rw [if_neg (by omega)]
  case h_6 hpc =>
    cases hs
    exact .of (locals_manager hpc) (locals_setManager _ j _) rfl (.inr le_rfl) id
      (.keep _) (.clear _)
  case h_7 hpc =>
    cases hs
    exact .of (locals_manager hpc) (locals_setManager _ j _) rfl (.inr le_rfl) id
      (.keep _) (.advanceOut _)
  case h_8 products i hpc =>
    cases hs
    refine .of (locals_manager hpc) (locals_setManager _ j _) rfl (.inr ?_) id
      (.keep _) (.decrement _)
    show s.count - 1 - s.full - ((if i + 1 = 0 then 1 else 0 : Nat) : Int)
      ≤ s.count - s.full - ((if i = 0 then 1 else 0 : Nat) : Int)
    rw [if_neg (by omega)]
    split <;> omega
  case h_9 hpc =>
    cases hs
    exact .of (locals_manager hpc) (locals_setManager s j _) rfl (.inr le_rfl) id
      (.keep _) (.idle _)
  case h_10 hpc =>
    cases hs
    exact .of (locals_manager hpc) (locals_setManager _ j _) rfl (.inr le_rfl) id
      (.unlock _) (.idle _)
  case h_11 hpc =>
    cases hs
    refine .of (locals_manager hpc) (locals_setManager _ j _) ?_ (.inr le_rfl)
      (fun _ => trivial) (.outside _) (.idle _)
    show s.empty + 1 + s.full + 0 = s.empty + s.full + 1
    omega
  case h_12 hpc =>
    cases hs
    exact .of (locals_manager hpc) (locals_setManager s j _) rfl (.inr le_rfl)
      (fun _ => trivial) (.outside _) (.idle _)

/-! ## The buffer across a critical section -/

/-- The cells that are 1 are the `held` cells from `start` on. -/
def Layout (b : Buffer) (start held : Nat) : Prop :=
  ∀ k : Fin bufferSize, b.cells k = 1 ↔ Ring.Occupied bufferSize start held k

/-- How `count = c` products, `in` and the cells are in step in each phase. -/
def Aligned (b : Buffer) (c : Nat) : Phase → Prop
  | .steady => c ≤ bufferSize ∧ b.inPos.val = (b.out.val + c) % bufferSize ∧
      Layout b b.out c ∧ b.delivered = b.removed + c
  | .removing => 0 < c ∧ c ≤ bufferSize ∧ b.inPos.val = (b.out.val + c) % bufferSize ∧
      Layout b b.out c ∧ b.delivered = b.removed + c
  | .written => c < bufferSize ∧ b.inPos.val = (b.out.val + c) % bufferSize ∧
      Layout b b.out (c + 1) ∧ b.delivered = b.removed + (c + 1)
  | .inAdvanced => c < bufferSize ∧ b.inPos.val = (b.out.val + (c + 1)) % bufferSize ∧
      Layout b b.out (c + 1) ∧ b.delivered = b.removed + (c + 1)
  | .cleared => 0 < c ∧ c ≤ bufferSize ∧ b.inPos.val = (b.out.val + c) % bufferSize ∧
      Layout b (nextPos b.out) (c - 1) ∧ b.delivered = b.removed + (c - 1)
  | .outAdvanced => 0 < c ∧ c ≤ bufferSize ∧
      b.inPos.val = (b.out.val + (c - 1)) % bufferSize ∧
      Layout b b.out (c - 1) ∧ b.delivered = b.removed + (c - 1)

/-- The inventory is a number of products, and the rest is in step with it. -/
def Shape (φ : Phase) (b : Buffer) : Prop := ∃ c : Nat, b.count = c ∧ Aligned b c φ

theorem nextPos_val (i : Fin bufferSize) : (nextPos i).val = (i.val + 1) % bufferSize := rfl

/-- Each statement of a critical section takes one shape to the next; a truck
writes only while there is room. -/
theorem Shape.step {φ φ' : Phase} {b b' : Buffer} (h : Shape φ b)
    (hs : BufferStep φ b φ' b') (hroom : φ' = .written → b.count < bufferSize) :
    Shape φ' b' := by
  obtain ⟨c, hc, ha⟩ := h
  cases hs with
  | idle => exact ⟨c, hc, ha⟩
  | fill =>
      obtain ⟨_, hin, hlay, hbal⟩ := ha
      have hlt : c < bufferSize := by
        have := hroom rfl
        omega
      refine ⟨c, hc, hlt, hin, fun k => ?_, by dsimp only; omega⟩
      rw [Ring.occupied_succ]
      by_cases hk : k = b.inPos
      · subst hk
        simp [hin]
      · have hne : k.val ≠ (b.out.val + c) % bufferSize := by
          rw [← hin]
          exact fun h => hk (Fin.ext h)
        simp [Function.update_of_ne hk, hlay k, hne]
  | advanceIn =>
      obtain ⟨hlt, hin, hlay, hbal⟩ := ha
      refine ⟨c, hc, hlt, ?_, hlay, hbal⟩
      show (nextPos b.inPos).val = _
      rw [nextPos_val, hin, Nat.mod_add_mod, Nat.add_assoc]
  | increment =>
      obtain ⟨hlt, hin, hlay, hbal⟩ := ha
      exact ⟨c + 1, by push_cast; rw [hc], hlt, hin, hlay, hbal⟩
  | begin hpos =>
      obtain ⟨hle, hin, hlay, hbal⟩ := ha
      exact ⟨c, hc, by omega, hle, hin, hlay, hbal⟩
  | clear =>
      obtain ⟨hpos, hle, hin, hlay, hbal⟩ := ha
      refine ⟨c, hc, hpos, hle, hin, fun k => ?_, by dsimp only; omega⟩
      obtain ⟨c, rfl⟩ : ∃ c', c = c' + 1 := ⟨c - 1, by omega⟩
      rw [nextPos_val, Nat.add_sub_cancel, Ring.occupied_pop b.out.isLt (by omega)]
      by_cases hk : k = b.out
      · subst hk
        simp
      · have hne : k.val ≠ b.out.val := fun h => hk (Fin.ext h)
        simp [Function.update_of_ne hk, hlay k, hne]
  | advanceOut =>
      obtain ⟨hpos, hle, hin, hlay, hbal⟩ := ha
      refine ⟨c, hc, hpos, hle, ?_, hlay, hbal⟩
      show b.inPos.val = _
      rw [nextPos_val, Nat.mod_add_mod, hin]
      congr 1
      omega
  | decrement =>
      obtain ⟨hpos, hle, hin, hlay, hbal⟩ := ha
      exact ⟨c - 1, by dsimp only; omega, by omega, hin, hlay, hbal⟩

/-! ## The invariant -/

/-- The phase of the thread that owns the mutex. -/
def State.phase (s : State T M) : Phase :=
  match s.mutex with
  | none => .steady
  | some o => (s.locals o).phase

/-- **The invariant of the warehouse.** -/
structure Inv (s : State T M) : Prop where
  tokens : s.empty + s.full + tally (fun _ => Local.token) s.locals = bufferSize
  stock : s.count ≤ s.full + tally (fun _ => Local.stocked) s.locals
  positive : ∀ o, (s.locals o).Positive
  owner : ∀ o, (s.locals o).inside = true ↔ s.mutex = some o
  shape : Shape s.phase s.ring

theorem inv_initial (past : Int32) : Inv (initial T M past) where
  tokens := by
    rw [tally_eq_zero (fun o => by cases o <;> rfl)]
    rfl
  stock := by
    rw [tally_eq_zero (fun o => by cases o <;> rfl)]
    exact le_rfl
  positive := fun o => by cases o <;> exact trivial
  owner := fun o => by cases o <;> exact ⟨fun h => (by cases h), fun h => (by cases h)⟩
  shape := by
    refine ⟨0, rfl, by decide, rfl, fun k => ?_, rfl⟩
    simp [initial, State.ring, Ring.not_occupied_zero]

theorem phase_of_outside {l : Local} (h : l.inside = false) : l.phase = .steady := by
  cases l with
  | truck t => cases t <;> first | rfl | cases h
  | manager m => cases m <;> first | rfl | cases h

/-- A truck about to have written a cell holds a token that is not stock. -/
theorem token_of_written {l : Local} (h : l.phase = .written) :
    l.stocked < l.token := by
  cases l with
  | truck t => cases t <;> first | exact Nat.zero_lt_one | cases h
  | manager m => cases m <;> cases h

theorem stocked_le_token (l : Local) : l.stocked ≤ l.token := by
  cases l with
  | truck t =>
      cases t <;> simp [Local.stocked, Truck.stocked, Local.token, Truck.token]
  | manager m =>
      cases m <;> simp only [Local.stocked, Manager.stocked, Local.token, Manager.token] <;>
        first | omega | (split <;> omega)

/-- **Every step keeps the invariant.** -/
theorem Inv.step {o : Owner T M} {s s' : State T M} (h : Inv s) (he : Effect o s s') :
    Inv s' := by
  have hother : ∀ o' ≠ o, s'.locals o' = s.locals o' := fun o' ho => by
    rw [he.locals, Function.update_of_ne ho]
  have htoken := tally_update (fun _ => Local.token) s.locals o (s'.locals o)
  have hstocked := tally_update (fun _ => Local.stocked) s.locals o (s'.locals o)
  rw [← he.locals] at htoken hstocked
  have htokens : s'.empty + s'.full + tally (fun _ => Local.token) s'.locals = bufferSize := by
    have h1 := h.tokens
    have h2 := he.tokens
    omega
  have hstock : s'.count ≤ s'.full + tally (fun _ => Local.stocked) s'.locals := by
    have h1 := h.stock
    rcases he.stock with h2 | h2 <;> omega
  have howner := he.locking.owner (f := fun o => (s.locals o).inside)
    (g := fun o => (s'.locals o).inside) (fun o' ho => by rw [hother o' ho]) h.owner
  refine ⟨htokens, hstock, fun o' => ?_, howner, ?_⟩
  · by_cases ho : o' = o
    · rw [ho]
      exact he.positive (h.positive o)
    · rw [hother o' ho]
      exact h.positive o'
  · -- the mover's phase is the buffer's phase unless the mover is outside
    have hroom : (s'.locals o).phase = .written → s.ring.count < bufferSize := by
      intro hw
      have hlt := tally_lt (fun _ l => stocked_le_token l) (f := s'.locals) (i := o)
        (token_of_written hw)
      have h1 : s'.count = s.ring.count := he.ring.count_eq hw
      omega
    have hmutex := h.owner o
    have hmutex' := howner o
    have hphase : s.mutex = some o → s.phase = (s.locals o).phase := fun hm => by
      rw [State.phase, hm]
    have hphase' : s'.mutex = some o → s'.phase = (s'.locals o).phase := fun hm => by
      rw [State.phase, hm]
    have hshape := h.shape
    have hring := he.ring
    cases hin : (s.locals o).inside with
    | true =>
        rw [hphase (hmutex.mp hin)] at hshape
        have hs' := hshape.step hring hroom
        cases hin' : (s'.locals o).inside with
        | true => rw [hphase' (hmutex'.mp hin')]; exact hs'
        | false =>
            -- the mover has freed the mutex
            have hl := he.locking
            rw [hin, hin'] at hl
            have hnone : s'.mutex = none := hl.unlock_eq
            rw [phase_of_outside hin'] at hs'
            rw [State.phase, hnone]
            exact hs'
    | false =>
        rw [phase_of_outside hin] at hring
        cases hin' : (s'.locals o).inside with
        | true =>
            have hl := he.locking
            rw [hin, hin'] at hl
            have hnone : s.mutex = none := hl.lock_eq
            rw [State.phase, hnone] at hshape
            rw [hphase' (hmutex'.mp hin')]
            exact hshape.step hring hroom
        | false =>
            rw [phase_of_outside hin'] at hring
            have hl := he.locking
            rw [hin, hin'] at hl
            have hsame : s'.mutex = s.mutex := hl.outside_eq
            have heq : s'.ring = s.ring := hring.eq_of_steady rfl rfl
            have hp : s'.phase = s.phase := by
              unfold State.phase
              rw [hsame]
              cases hm : s.mutex with
              | none => rfl
              | some o' =>
                  have ho : o' ≠ o := by
                    rintro rfl
                    rw [hmutex.mpr hm] at hin
                    cases hin
                  dsimp only
                  rw [hother o' ho]
            rw [hp, heq]
            exact hshape

theorem inv_step {e : Event T M} {s s' : State T M} (h : Inv s)
    (hs : step e s = some s') : Inv s' := by
  cases e with
  | truck i rand => exact h.step (deliveryTruck_effect hs)
  | manager j rand => exact h.step (storageManager_effect (h.positive (.manager j)) hs)

theorem inv_reachable {past : Int32} {s : State T M}
    (h : Reachable step (initial T M past) s) : Inv s :=
  h.invariant (inv_initial past) fun _ _ _ hI _ hs => inv_step hI hs

/-! ## Safety -/

/-- **Warehouse safety**, for any number of trucks and managers, any random
numbers and any interleaving. Whenever the mutex is free the inventory is
between 0 and `BUFFER_SIZE`, `in` is `count` positions after `out`, the ones
in the buffer are exactly the positions in between, and the inventory is
what was delivered less what was removed. A truck about to write finds its
cell free; a manager about to clear finds its cell occupied. -/
theorem warehouse_safe {past : Int32} {s : State T M}
    (h : Reachable step (initial T M past) s) :
    (s.mutex = none →
      0 ≤ s.count ∧ s.count ≤ bufferSize ∧
      s.inPos.val = (s.out.val + s.count.toNat) % bufferSize ∧
      (∀ k : Fin bufferSize, s.buffer k = 1 ↔
        ∃ d < s.count.toNat, k.val = (s.out.val + d) % bufferSize) ∧
      s.count = s.delivered - s.removed) ∧
    (∀ i products, s.trucks i = .fill products → s.buffer s.inPos ≠ 1) ∧
    (∀ j products i, s.managers j = .clear products i → s.buffer s.out = 1) := by
  have hinv := inv_reachable h
  refine ⟨fun hfree => ?_, fun i products hpc => ?_, fun j products i hpc => ?_⟩
  · have hshape := hinv.shape
    rw [State.phase, hfree] at hshape
    obtain ⟨c, hc, hle, hin, hlay, hbal⟩ := hshape
    have hc' : s.count = c := hc
    have hbal' : s.delivered = s.removed + c := hbal
    refine ⟨by omega, by omega, ?_, ?_, by omega⟩
    · rw [hc', Int.toNat_natCast]
      exact hin
    · rw [hc', Int.toNat_natCast]
      exact hlay
  · have hl := locals_truck hpc
    have hshape := hinv.shape
    rw [State.phase, (hinv.owner (.truck i)).mp (by rw [hl]; rfl)] at hshape
    dsimp only at hshape
    rw [hl] at hshape
    obtain ⟨c, hc, _, hin, hlay, _⟩ := hshape
    -- the truck's own token is no stock, so there is room
    have hlt := tally_lt (fun _ l => stocked_le_token l) (f := s.locals) (i := .truck i)
      (by rw [hl]; exact Nat.zero_lt_one)
    have hc' : s.count = c := hc
    have h1 := hinv.tokens
    have h2 := hinv.stock
    have hnot := Ring.not_occupied_next s.out.isLt (c := c) (by omega)
    have hin' : s.inPos.val = (s.out.val + c) % bufferSize := hin
    rw [← hin'] at hnot
    exact fun h1 => hnot ((hlay s.inPos).mp h1)
  · have hl := locals_manager hpc
    have hshape := hinv.shape
    rw [State.phase, (hinv.owner (.manager j)).mp (by rw [hl]; rfl)] at hshape
    dsimp only at hshape
    rw [hl] at hshape
    obtain ⟨c, _, hpos, _, _, hlay, _⟩ := hshape
    exact (hlay s.out).mpr (Ring.occupied_first s.out.isLt hpos)

/-- A truck delivers one product, and a manager is about to remove it. -/
theorem warehouse_safe_sample :
    ∃ s : State 1 1, exec step (initial 1 1 0)
        (List.replicate 9 (.truck 0 0) ++ List.replicate 5 (.manager 0 0)) = some s ∧
      s.managers 0 = .clear 1 0 ∧ s.buffer s.out = 1 :=
  ⟨_, rfl, rfl, (warehouse_safe (Reachable.exec .start
    (List.replicate 9 (.truck 0 0) ++ List.replicate 5 (.manager 0 0)) rfl)).2.2 0 1 0 rfl⟩

end OsInParts.Warehouse
