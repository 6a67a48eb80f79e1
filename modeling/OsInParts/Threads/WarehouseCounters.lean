import OsInParts.Threads.Warehouse

/-!
# WarehouseCounters — every truck counts its deliveries in a word of its own

`main` allocates `num_trucks` counters and numbers the trucks from 1, and
`delivery_truck` uses `deliveries[id]`. So the words used are apart, but the
one of the last truck is past the end of the array: as soon as that truck has
made a delivery, it counts it in a word that `main` has neither allocated nor
set to 0.

`Log` records what the trucks do next to the state of the warehouse, and
`Ledger` is what holds between a truck, its counter and this record.
-/

namespace OsInParts.Warehouse

open Lib.Threads

variable {T M : Nat}

/-- A delivery: the products announced, and those put into the buffer. -/
structure Delivery where
  announced : Nat
  put : Nat
  deriving DecidableEq

/-- The delivery that a truck is at after its next step. -/
def Truck.goods (rand : Nat) (delivery : Delivery) : Truck → Delivery
  | .start => { announced := rand % deliveryMaxProducts + 1, put := 0 }
  | .fill _ => { delivery with put := delivery.put + 1 }
  | _ => delivery

/-- The delivery that its next step completes. -/
def Truck.completed (delivery : Delivery) : Truck → List Delivery
  | .record => [delivery]
  | _ => []

/-- The access of `deliveries` that its next step makes. -/
def Truck.access (i : Fin T) : Truck → List (Fin T × Nat)
  | .record => [(i, truckId i)]
  | _ => []

/-- The warehouse and a record, which is not in the code: the delivery each
truck is at, those it has made, and which truck has used which counter. -/
structure Log (T M : Nat) extends State T M where
  current : Fin T → Delivery
  made : Fin T → List Delivery
  accesses : List (Fin T × Nat)

def Log.initial (T M : Nat) (past : Int32) : Log T M :=
  { Warehouse.initial T M past with
    current := fun _ => { announced := 0, put := 0 }
    made := fun _ => []
    accesses := [] }

def Log.step : Event T M → Log T M → Option (Log T M)
  | .truck i rand, s => (deliveryTruck i rand s.toState).map fun next =>
      { toState := next
        current := Function.update s.current i ((s.trucks i).goods rand (s.current i))
        made := Function.update s.made i (s.made i ++ (s.trucks i).completed (s.current i))
        accesses := s.accesses ++ (s.trucks i).access i }
  | .manager j rand, s => (storageManager j rand s.toState).map fun next =>
      { s with toState := next }

/-- The record changes nothing. -/
theorem Log.step_toState (e : Event T M) (s : Log T M) :
    (Log.step e s).map Log.toState = Warehouse.step e s.toState := by
  cases e <;> simp [Log.step, Warehouse.step, Function.comp_def]

/-- **What the counters are for**: each is inside the array and used by one
truck, and each truck exits when it has made `MAX_DELIVERIES` deliveries, all
of them with the products that it announced. -/
structure Log.Proper (s : Log T M) : Prop where
  inside : ∀ a ∈ s.accesses, a.2 < T
  own : ∀ a ∈ s.accesses, ∀ b ∈ s.accesses, a.2 = b.2 → a.1 = b.1
  exits : ∀ i, s.trucks i = .exited ↔ ((s.made i).length : Int) = maxDeliveries.toInt
  most : ∀ i, ((s.made i).length : Int) ≤ maxDeliveries.toInt
  whole : ∀ i, ∀ delivery ∈ s.made i, delivery.put = delivery.announced

/-- The truck that moves does not come to `deliveries[num_trucks]`. -/
def CounterInside : Event T M → Log T M → Prop
  | .truck i _, s => s.trucks i = .record → truckId i < T
  | .manager _ _, _ => True

instance : ∀ (e : Event T M) (s : Log T M), Decidable (CounterInside e s)
  | .truck i _, s => inferInstanceAs (Decidable (s.trucks i = .record → truckId i < T))
  | .manager _ _, _ => inferInstanceAs (Decidable True)

/-! ## What a step does to a truck and its counter -/

/-- The steps of a truck, with its counter before and after. -/
inductive Truck.Moves (rand : Nat) : Truck → Int32 → Truck → Int32 → Prop where
  | announce (c) : Moves rand .start c (.check (rand % deliveryMaxProducts + 1)) c
  | enter (c) {p : Nat} (h : 0 < p) : Moves rand (.check p) c (.waitEmpty p) c
  | leave (c) : Moves rand (.check 0) c .record c
  | wait (c p) : Moves rand (.waitEmpty p) c (.lock p) c
  | lock (c p) : Moves rand (.lock p) c (.fill p) c
  | fill (c p) : Moves rand (.fill p) c (.advanceIn p) c
  | advance (c p) : Moves rand (.advanceIn p) c (.increment p) c
  | increment (c p) : Moves rand (.increment p) c (.unlock (p - 1)) c
  | unlock (c p) : Moves rand (.unlock p) c (.postFull p) c
  | post (c p) : Moves rand (.postFull p) c (.check p) c
  | exit {c : Int32} (h : maxDeliveries ≤ c + 1) : Moves rand .record c .exited (c + 1)
  | rest {c : Int32} (h : ¬ maxDeliveries ≤ c + 1) : Moves rand .record c .sleep (c + 1)
  | wake (c) : Moves rand .sleep c .start c

/-- **Everything a step of truck `i` does to trucks and counters.** -/
structure Turn (i : Fin T) (rand : Nat) (s s' : State T M) : Prop where
  moves : Truck.Moves rand (s.trucks i) (s.deliveries (truckId i)) (s'.trucks i)
    (s'.deliveries (truckId i))
  trucks : ∀ k ≠ i, s'.trucks k = s.trucks k
  counters : ∀ k ≠ i, s'.deliveries (truckId k) = s.deliveries (truckId k)

theorem truckId_injective : Function.Injective (truckId (T := T)) := by
  intro i k h
  exact Fin.ext (Nat.succ.inj h)

/-- A turn from the truck's place before and after. -/
theorem Turn.of {i : Fin T} {rand : Nat} {s s' : State T M} {t t' : Truck} {c' : Int32}
    (ht : s.trucks i = t) (ht' : s'.trucks = Function.update s.trucks i t')
    (hc' : s'.deliveries = Function.update s.deliveries (truckId i) c')
    (hmoves : Truck.Moves rand t (s.deliveries (truckId i)) t' c') : Turn i rand s s' where
  moves := by
    rw [ht, ht', hc', Function.update_self, Function.update_self]
    exact hmoves
  trucks := by
    intro k hk
    rw [ht', Function.update_of_ne hk]
  counters := by
    intro k hk
    rw [hc', Function.update_of_ne (truckId_injective.ne hk)]

theorem deliveryTruck_turn {i : Fin T} {rand : Nat} {s s' : State T M}
    (hs : deliveryTruck i rand s = some s') : Turn i rand s s' := by
  have hsame : s.deliveries
      = Function.update s.deliveries (truckId i) (s.deliveries (truckId i)) :=
    (Function.update_eq_self _ _).symm
  unfold deliveryTruck at hs
  split at hs
  case h_1 ht =>
    cases hs
    exact .of ht rfl hsame (.announce _)
  case h_2 products ht =>
    split at hs
    · rename_i hpos
      cases hs
      exact .of ht rfl hsame (.enter _ hpos)
    · rename_i hzero
      cases hs
      obtain rfl : products = 0 := by omega
      exact .of ht rfl hsame (.leave _)
  case h_3 ht =>
    split at hs <;> cases hs
    exact .of ht rfl hsame (.wait _ _)
  case h_4 ht =>
    split at hs <;> cases hs
    exact .of ht rfl hsame (.lock _ _)
  case h_5 ht =>
    cases hs
    exact .of ht rfl hsame (.fill _ _)
  case h_6 ht =>
    cases hs
    exact .of ht rfl hsame (.advance _ _)
  case h_7 ht =>
    cases hs
    exact .of ht rfl hsame (.increment _ _)
  case h_8 ht =>
    cases hs
    exact .of ht rfl hsame (.unlock _ _)
  case h_9 ht =>
    cases hs
    exact .of ht rfl hsame (.post _ _)
  case h_10 ht =>
    -- `deliveries[id]++`, and the test against `MAX_DELIVERIES`
    simp only [Function.update_self] at hs
    split at hs <;> cases hs
    · rename_i hlast
      exact .of ht rfl rfl (.exit hlast)
    · rename_i hmore
      exact .of ht rfl rfl (.rest hmore)
  case h_11 ht =>
    cases hs
    exact .of ht rfl hsame (.wake _)
  case h_12 => cases hs

/-- A manager leaves both alone. -/
theorem storageManager_frame {j : Fin M} {rand : Nat} {s s' : State T M}
    (hs : storageManager j rand s = some s') :
    s'.trucks = s.trucks ∧ s'.deliveries = s.deliveries := by
  unfold storageManager at hs
  split at hs <;> (try split at hs) <;> cases hs <;> exact ⟨rfl, rfl⟩

/-! ## The ledger of a truck -/

/-- The products that are still to be put. -/
def Truck.left : Truck → Nat
  | .check p | .waitEmpty p | .lock p | .fill p | .unlock p | .postFull p => p
  | .advanceIn p | .increment p => p - 1
  | _ => 0

def Truck.delivering : Truck → Prop
  | .start | .sleep | .exited => False
  | _ => True

/-- In the loop body there is a product to deliver. -/
def Truck.Positive : Truck → Prop
  | .waitEmpty p | .lock p | .fill p | .advanceIn p | .increment p => 0 < p
  | _ => True

/-- **The ledger of truck `i`**: its place, its counter, the delivery it is at and
those it has made. -/
structure Ledger (i : Fin T) (t : Truck) (c : Int32) (delivery : Delivery)
    (made : List Delivery) : Prop where
  whole : ∀ d ∈ made, d.put = d.announced
  current : t.delivering → delivery.put + t.left = delivery.announced
  positive : t.Positive
  exits : t = .exited ↔ made.length = 2
  most : made.length ≤ 2
  counter : truckId i < T → c = Int32.ofNat made.length
  /-- the last truck has not come to its counter -/
  last : ¬ truckId i < T → made = []

variable {i : Fin T} {t t' : Truck} {c c' : Int32} {delivery delivery' : Delivery}
  {made : List Delivery}

/-- A step that does not end a delivery. -/
theorem Ledger.move (h : Ledger i t c delivery made) (hopen : t ≠ .exited) (hopen' : t' ≠ .exited)
    (hcurrent : t'.delivering → delivery'.put + t'.left = delivery'.announced)
    (hpositive : t'.Positive) : Ledger i t' c delivery' (made ++ []) := by
  rw [List.append_nil]
  exact ⟨h.whole, hcurrent, hpositive, iff_of_false hopen' (mt h.exits.mpr hopen), h.most,
    h.counter, h.last⟩

/-- The count that `deliveries[id]++` leaves. -/
theorem Ledger.count (h : Ledger i t c delivery made) (hopen : t ≠ .exited)
    (hinside : truckId i < T) :
    made.length < 2 ∧ c + 1 = Int32.ofNat (made.length + 1) ∧
      (maxDeliveries ≤ c + 1 ↔ made.length + 1 = 2) := by
  have hne : made.length ≠ 2 := mt h.exits.mpr hopen
  have hmost := h.most
  rw [h.counter hinside]
  obtain hnone | hone : made.length = 0 ∨ made.length = 1 := by omega
  · rw [hnone]
    exact ⟨by decide, by decide, by decide⟩
  · rw [hone]
    exact ⟨by decide, by decide, by decide⟩

/-- A step that ends one. -/
theorem Ledger.complete (h : Ledger i .record c delivery made) (hinside : truckId i < T)
    (hidle : ¬ t'.delivering) (hpositive : t'.Positive)
    (hexit : t' = .exited ↔ maxDeliveries ≤ c + 1) :
    Ledger i t' (c + 1) delivery (made ++ [delivery]) := by
  obtain ⟨hlt, hcount, hmax⟩ := h.count (by simp) hinside
  have hlength : (made ++ [delivery]).length = made.length + 1 := by simp
  refine ⟨fun d hd => ?_, fun hd => absurd hd hidle, hpositive, ?_, by omega,
    fun _ => hlength ▸ hcount, fun hout => absurd hinside hout⟩
  · rcases List.mem_append.mp hd with hd | hd
    · exact h.whole d hd
    · rw [List.mem_singleton.mp hd]
      exact h.current trivial
  · rw [hlength, hexit, hmax]

/-- **Each step keeps the ledger.** -/
theorem Ledger.step (h : Ledger i t c delivery made) {rand : Nat}
    (hmoves : Truck.Moves rand t c t' c') (hinside : t = .record → truckId i < T) :
    Ledger i t' c' (t.goods rand delivery) (made ++ t.completed delivery) := by
  cases hmoves with
  | announce => exact h.move (by simp) (by simp) (fun _ => Nat.zero_add _) trivial
  | enter _ hpos => exact h.move (by simp) (by simp) (fun _ => h.current trivial) hpos
  | leave => exact h.move (by simp) (by simp) (fun _ => h.current trivial) trivial
  | wait => exact h.move (by simp) (by simp) (fun _ => h.current trivial) h.positive
  | lock => exact h.move (by simp) (by simp) (fun _ => h.current trivial) h.positive
  | fill _ p =>
      have hcurrent : delivery.put + p = delivery.announced := h.current trivial
      have hpos : 0 < p := h.positive
      -- the product that is put is one that was left
      refine h.move (by simp) (by simp) (fun _ => ?_) hpos
      show delivery.put + 1 + (p - 1) = delivery.announced
      omega
  | advance => exact h.move (by simp) (by simp) (fun _ => h.current trivial) h.positive
  | increment => exact h.move (by simp) (by simp) (fun _ => h.current trivial) trivial
  | unlock => exact h.move (by simp) (by simp) (fun _ => h.current trivial) trivial
  | post => exact h.move (by simp) (by simp) (fun _ => h.current trivial) trivial
  | exit hlast => exact h.complete (hinside rfl) id trivial (iff_of_true rfl hlast)
  | rest hmore => exact h.complete (hinside rfl) id trivial (iff_of_false (by simp) hmore)
  | wake => exact h.move (by simp) (by simp) (fun hd => hd.elim) trivial

/-! ## Runs -/

/-- **The invariant of the counters.** -/
structure Log.Inv (s : Log T M) : Prop where
  ledger : ∀ i, Ledger i (s.trucks i) (s.deliveries (truckId i)) (s.current i) (s.made i)
  accesses : ∀ a ∈ s.accesses, a.2 = truckId a.1 ∧ a.2 < T

theorem Log.inv_initial (past : Int32) : (Log.initial T M past).Inv where
  ledger := by
    intro i
    refine ⟨by simp [Log.initial], fun h => h.elim, trivial,
      by simp [Log.initial, Warehouse.initial], Nat.zero_le _, fun hinside => ?_, fun _ => rfl⟩
    simp [Log.initial, Warehouse.initial, hinside]
  accesses := by simp [Log.initial]

theorem Log.Inv.step {e : Event T M} {s s' : Log T M} (h : s.Inv) (hok : CounterInside e s)
    (hs : Log.step e s = some s') : s'.Inv := by
  cases e with
  | truck i rand =>
      obtain ⟨next, hnext, rfl⟩ := Option.map_eq_some_iff.mp hs
      have hturn := deliveryTruck_turn hnext
      refine ⟨fun k => ?_, fun a ha => ?_⟩
      · by_cases hk : k = i
        · subst hk
          simp only [Function.update_self]
          exact (h.ledger k).step hturn.moves hok
        · -- only truck `i` moves, and no other truck has its counter
          simp only [Function.update_of_ne hk, hturn.trucks k hk, hturn.counters k hk]
          exact h.ledger k
      · rcases List.mem_append.mp ha with ha | ha
        · exact h.accesses a ha
        · -- a new access is made by a truck at `deliveries[id]++`
          cases ht : s.trucks i <;> simp [ht, Truck.access] at ha
          subst ha
          exact ⟨rfl, hok ht⟩
  | manager j rand =>
      obtain ⟨next, hnext, rfl⟩ := Option.map_eq_some_iff.mp hs
      obtain ⟨htrucks, hcounters⟩ := storageManager_frame hnext
      refine ⟨fun k => ?_, h.accesses⟩
      simp only [htrucks, hcounters]
      exact h.ledger k

theorem Log.Inv.proper {s : Log T M} (h : s.Inv) : s.Proper where
  inside := fun a ha => (h.accesses a ha).2
  own := by
    intro a ha b hb heq
    rw [(h.accesses a ha).1, (h.accesses b hb).1] at heq
    exact truckId_injective heq
  exits := by
    intro i
    rw [(h.ledger i).exits, show maxDeliveries.toInt = 2 from rfl]
    omega
  most := by
    intro i
    have hmost := (h.ledger i).most
    rw [show maxDeliveries.toInt = 2 from rfl]
    omega
  whole := fun i => (h.ledger i).whole

/-- An access outside the array stays in the record. -/
theorem Log.outside_step {e : Event T M} {s s' : Log T M} (hs : Log.step e s = some s')
    (h : ∃ a ∈ s.accesses, ¬ a.2 < T) : ∃ a ∈ s'.accesses, ¬ a.2 < T := by
  obtain ⟨a, ha, hout⟩ := h
  cases e with
  | truck i rand =>
      obtain ⟨next, hnext, rfl⟩ := Option.map_eq_some_iff.mp hs
      exact ⟨a, List.mem_append_left _ ha, hout⟩
  | manager j rand =>
      obtain ⟨next, hnext, rfl⟩ := Option.map_eq_some_iff.mp hs
      exact ⟨a, ha, hout⟩

theorem Log.outside_of_not_inside {e : Event T M} {s s' : Log T M} (hok : ¬ CounterInside e s)
    (hs : Log.step e s = some s') : ∃ a ∈ s'.accesses, ¬ a.2 < T := by
  cases e with
  | truck i rand =>
      obtain ⟨next, hnext, rfl⟩ := Option.map_eq_some_iff.mp hs
      obtain ⟨ht, hout⟩ := Classical.not_imp.mp hok
      refine ⟨(i, truckId i), List.mem_append_right _ ?_, hout⟩
      simp [ht, Truck.access]
  | manager j rand => exact absurd trivial hok

/-- **When the trucks keep to their counters**, for any number of trucks and
managers, any random numbers and any interleaving: exactly while the last
truck has not counted a delivery. -/
theorem trucks_proper_iff {past : Int32} {es : List (Event T M)} {s : Log T M}
    (hes : exec Log.step (Log.initial T M past) es = some s) :
    s.Proper ↔ exec (guarded Log.step CounterInside) (Log.initial T M past) es = some s := by
  constructor
  · intro h
    -- a step past the end would leave an access that is not inside
    refine exec_guarded (fun s : Log T M => ∃ a ∈ s.accesses, ¬ a.2 < T)
      (fun _ _ _ hbad hs => Log.outside_step hs hbad)
      (fun _ _ _ hok hs => Log.outside_of_not_inside hok hs) hes ?_
    rintro ⟨a, ha, hout⟩
    exact hout (h.inside a ha)
  · intro hguarded
    exact ((Run.exec .start es hguarded).invariant (Log.inv_initial past)
      fun _ _ _ hI hok hs => hI.step hok hs).proper

/-- The first of two trucks delivers one product twice, and exits. -/
theorem trucks_proper_iff_two :
    ∃ s : Log 2 1, exec Log.step (Log.initial 2 1 0) (List.replicate 23 (.truck 0 0)) = some s ∧
      s.trucks 0 = .exited ∧ s.Proper := by
  have hexec := Option.eq_some_of_isSome
    (o := exec Log.step (Log.initial 2 1 0) (List.replicate 23 (.truck 0 0))) rfl
  exact ⟨_, hexec, rfl, (trucks_proper_iff hexec).mpr rfl⟩

/-- The only truck counts its first delivery past the end of the array. -/
theorem not_always_proper :
    ¬ ∀ (T M : Nat) (past : Int32) (s : Log T M), 1 ≤ T → 1 ≤ M →
      Reachable Log.step (Log.initial T M past) s → s.Proper := by
  intro h
  have hexec := Option.eq_some_of_isSome
    (o := exec Log.step (Log.initial 1 1 0) (List.replicate 11 (.truck 0 0))) rfl
  have hproper := h 1 1 0 _ le_rfl le_rfl (Reachable.exec .start _ hexec)
  exact absurd (hproper.inside (0, 1) (by decide)) (by decide)

end OsInParts.Warehouse
