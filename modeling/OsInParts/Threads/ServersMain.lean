import OsInParts.Threads.Servers

/-!
# ServersMain — the whole program around the servers

`main` of `Multithreading/q2.c`: it sets every semaphore to 1, creates the
servers one after the other, joins them in the same order and destroys the
semaphores. A server runs as soon as it is created, while `main` still
creates the others. `pthread_create` is taken to succeed (its result is not
looked at), and the threads see `ids[i] = i`.

The servers wait for the lower of their channels first, so of the blocked ones
the one that wants the highest channel is waiting for a server that is not
blocked: every run ends, unless there is one server only. That one needs
channel 0 twice.
-/

namespace OsInParts.Servers

open Lib.Threads

/-- Where `main` is: at the test of one of its four loops, with `i`, or at the
end. -/
inductive Main where
  | init (i : Nat)
  | create (i : Nat)
  | join (i : Nat)
  | destroy (i : Nat)
  | done
  deriving DecidableEq

/-- `main` and the threads; `live` is set for a semaphore between `sem_init` and
`sem_destroy`. -/
structure Program (N : Nat) where
  main : Main
  live : Fin N → Bool
  system : State N

variable {N T : Nat}

/-- The array of semaphores is global, so it starts out as zeros. -/
def Program.initial (N : Nat) : Program N :=
  { main := .init 0
    live := fun _ => false
    system := { channels := fun _ => 0, servers := fun _ => { taskCount := 0, pc := .loop } } }

/-- The next step of `main`, `none` while it waits in `pthread_join`. -/
def mainStep (p : Program N) : Option (Program N) :=
  match p.main with
  | .init i =>
      if h : i < N then
        some { main := .init (i + 1)
               live := Function.update p.live ⟨i, h⟩ true
               system := { p.system with
                 channels := Function.update p.system.channels ⟨i, h⟩ 1 } }
      else some { p with main := .create 0 }
  | .create i =>
      if i < N then some { p with main := .create (i + 1) } else some { p with main := .join 0 }
  | .join i =>
      if h : i < N then
        if Finished p.system ⟨i, h⟩ then some { p with main := .join (i + 1) } else none
      else some { p with main := .destroy 0 }
  | .destroy i =>
      if h : i < N then
        some { p with
          main := .destroy (i + 1)
          live := Function.update p.live ⟨i, h⟩ false }
      else some { p with main := .done }
  | .done => none

/-- How many semaphores have been initialised. -/
def Main.initialised (N : Nat) : Main → Nat
  | .init i => i
  | _ => N

/-- How many threads have been created. -/
def Main.created (N : Nat) : Main → Nat
  | .init _ => 0
  | .create i => i
  | _ => N

/-- How many threads have been joined. -/
def Main.joined (N : Nat) : Main → Nat
  | .init _ | .create _ => 0
  | .join i => i
  | _ => N

/-- How many semaphores have been destroyed. -/
def Main.destroyed (N : Nat) : Main → Nat
  | .destroy i => i
  | .done => N
  | _ => 0

/-- A step of `main`, or of a server that has been created. -/
def Program.step (T : Nat) (e : Option (Fin N)) (p : Program N) : Option (Program N) :=
  match e with
  | none => mainStep p
  | some i =>
      if i.val < p.main.created N then
        (serverFunc T i p.system).map fun s => { p with system := s }
      else none

/-- The next step of server `i` is a `sem_wait` or a `sem_post` on `c`. -/
def Uses (s : State N) (i c : Fin N) : Prop :=
  match (s.servers i).pc with
  | .waitFirst => c = firstChannel i
  | .waitSecond => c = secondChannel i
  | .postLeft => c = leftChannel i
  | .postRight => c = rghtChannel i
  | _ => False

/-! ## What one step does -/

/-- The steps that are left to `main`. -/
def Main.rank (N : Nat) : Main → Nat
  | .init i => 3 * (N + 1) + (N - i) + 1
  | .create i => 2 * (N + 1) + (N - i) + 1
  | .join i => (N + 1) + (N - i) + 1
  | .destroy i => (N - i) + 1
  | .done => 0

/-- The steps of `main`, each with what it changes. -/
inductive MainMoves (p : Program N) : Program N → Prop where
  | init (c : Fin N) : p.main = .init c →
      MainMoves p
        { main := .init (c + 1)
          live := Function.update p.live c true
          system := { p.system with channels := Function.update p.system.channels c 1 } }
  | initEnd (i : Nat) : p.main = .init i → N ≤ i → MainMoves p { p with main := .create 0 }
  | create (i : Nat) : p.main = .create i → i < N →
      MainMoves p { p with main := .create (i + 1) }
  | createEnd (i : Nat) : p.main = .create i → N ≤ i → MainMoves p { p with main := .join 0 }
  | join (c : Fin N) : p.main = .join c → Finished p.system c →
      MainMoves p { p with main := .join (c + 1) }
  | joinEnd (i : Nat) : p.main = .join i → N ≤ i → MainMoves p { p with main := .destroy 0 }
  | destroy (c : Fin N) : p.main = .destroy c →
      MainMoves p { p with
        main := .destroy (c + 1)
        live := Function.update p.live c false }
  | destroyEnd (i : Nat) : p.main = .destroy i → N ≤ i → MainMoves p { p with main := .done }

theorem mainStep_moves {p p' : Program N} (h : mainStep p = some p') : MainMoves p p' := by
  unfold mainStep at h
  split at h
  case h_1 i hm =>
    split at h <;> cases h
    · exact .init ⟨i, ‹_›⟩ hm
    · exact .initEnd i hm (Nat.le_of_not_lt ‹_›)
  case h_2 i hm =>
    split at h <;> cases h
    · exact .create i hm ‹_›
    · exact .createEnd i hm (Nat.le_of_not_lt ‹_›)
  case h_3 i hm =>
    split at h
    · split at h <;> cases h
      exact .join ⟨i, ‹_›⟩ hm ‹_›
    · cases h
      exact .joinEnd i hm (Nat.le_of_not_lt ‹_›)
  case h_4 i hm =>
    split at h <;> cases h
    · exact .destroy ⟨i, ‹_›⟩ hm
    · exact .destroyEnd i hm (Nat.le_of_not_lt ‹_›)
  case h_5 => cases h

/-- The task of a server counts up to `T`. -/
structure Placed (T : Nat) (server : Server) : Prop where
  le : server.taskCount ≤ T
  busy : server.pc ≠ .loop → server.pc ≠ .done → server.taskCount < T
  done : server.pc = .done → server.taskCount = T

/-- The steps to the end of this turn of the loop. -/
def Pc.rank : Pc → Nat
  | .loop => 6
  | .waitFirst => 5
  | .waitSecond => 4
  | .processing => 3
  | .postLeft => 2
  | .postRight => 1
  | .done => 0

def Server.rank (T : Nat) (server : Server) : Nat := 6 * (T - server.taskCount) + server.pc.rank

/-- A step of a server moves that server only, nearer to its end. -/
theorem serverFunc_moves {i : Fin N} {s s' : State N} (h : serverFunc T i s = some s')
    (hplaced : Placed T (s.servers i)) :
    ∃ server, s'.servers = Function.update s.servers i server ∧ Placed T server ∧
      server.rank T < (s.servers i).rank T := by
  obtain ⟨hle, hbusy, -⟩ := hplaced
  have hstay : ∀ pc pc', (s.servers i).pc = pc → pc ≠ .loop → pc ≠ .done →
      pc' ≠ .done → pc'.rank < pc.rank → Placed T { s.servers i with pc := pc' } ∧
        Server.rank T { s.servers i with pc := pc' } < (s.servers i).rank T := by
    intro pc pc' hpc hloop hdone hdone' hlt
    refine ⟨⟨hle, fun _ _ => hbusy (hpc ▸ hloop) (hpc ▸ hdone), fun hd => absurd hd hdone'⟩, ?_⟩
    simp only [Server.rank, hpc]
    omega
  unfold serverFunc at h
  cases hpc : (s.servers i).pc <;> rw [hpc] at h <;> dsimp only at h
  case loop =>
    split at h <;> cases h
    · exact ⟨_, rfl, ⟨hle, fun _ _ => ‹_›, nofun⟩, by simp [Server.rank, hpc, Pc.rank]⟩
    · exact ⟨_, rfl, ⟨hle, fun _ hd => absurd rfl hd, fun _ => by dsimp only; omega⟩,
        by simp [Server.rank, hpc, Pc.rank]⟩
  case waitFirst =>
    obtain ⟨s₁, hwait, rfl⟩ := Option.map_eq_some_iff.mp h
    unfold semWait at hwait
    split at hwait <;> cases hwait
    exact ⟨_, rfl, hstay _ .waitSecond hpc nofun nofun nofun (by decide)⟩
  case waitSecond =>
    obtain ⟨s₁, hwait, rfl⟩ := Option.map_eq_some_iff.mp h
    unfold semWait at hwait
    split at hwait <;> cases hwait
    exact ⟨_, rfl, hstay _ .processing hpc nofun nofun nofun (by decide)⟩
  case processing =>
    cases h
    exact ⟨_, rfl, hstay _ .postLeft hpc nofun nofun nofun (by decide)⟩
  case postLeft =>
    cases h
    exact ⟨_, rfl, hstay _ .postRight hpc nofun nofun nofun (by decide)⟩
  case postRight =>
    -- a turn of the loop is over
    have hlt := hbusy (by simp [hpc]) (by simp [hpc])
    cases h
    refine ⟨_, rfl, ⟨hlt, nofun, nofun⟩, ?_⟩
    simp only [Server.rank, hpc, Pc.rank]
    omega
  case done => cases h

/-! ## The invariant -/

/-- **The program invariant**: the live semaphores are the initialised ones that
have not been destroyed, a server that has not been created has done nothing,
and one that has been joined is finished. -/
structure Program.Inv (T : Nat) (p : Program N) : Prop where
  live : ∀ c, p.live c = true ↔ c.val < p.main.initialised N ∧ p.main.destroyed N ≤ c.val
  idle : ∀ i : Fin N, p.main.created N ≤ i.val →
    p.system.servers i = { taskCount := 0, pc := .loop }
  finished : ∀ i : Fin N, i.val < p.main.joined N → Finished p.system i
  placed : ∀ i, Placed T (p.system.servers i)

/-- The steps that are left. -/
def Program.rank (T : Nat) (p : Program N) : Nat :=
  p.main.rank N + tally (fun _ server => server.rank T) p.system.servers

theorem inv_initial_main : (Program.initial N).Inv T where
  live := by simp [Program.initial, Main.initialised]
  idle := by simp [Program.initial]
  finished := by simp [Program.initial, Main.joined]
  placed := fun _ => ⟨Nat.zero_le T, fun hloop => absurd rfl hloop, nofun⟩

/-- `main` comes one step nearer to its end and leaves the servers alone. -/
theorem MainMoves.rank_lt {p p' : Program N} (h : MainMoves p p') :
    p'.system.servers = p.system.servers ∧ p'.main.rank N < p.main.rank N := by
  cases h with
  | init c hm => exact ⟨rfl, by simp only [hm, Main.rank]; omega⟩
  | initEnd i hm hi => exact ⟨rfl, by simp only [hm, Main.rank]; omega⟩
  | create i hm hi => exact ⟨rfl, by simp only [hm, Main.rank]; omega⟩
  | createEnd i hm hi => exact ⟨rfl, by simp only [hm, Main.rank]; omega⟩
  | join c hm hfinished => exact ⟨rfl, by simp only [hm, Main.rank]; omega⟩
  | joinEnd i hm hi => exact ⟨rfl, by simp only [hm, Main.rank]; omega⟩
  | destroy c hm => exact ⟨rfl, by simp only [hm, Main.rank]; omega⟩
  | destroyEnd i hm hi => exact ⟨rfl, by simp only [hm, Main.rank]; omega⟩

/-- A semaphore becomes live when it is initialised, and until it is destroyed. -/
theorem MainMoves.live {p p' : Program N} (h : MainMoves p p') {c : Fin N}
    (hlive : p.live c = true ↔ c.val < p.main.initialised N ∧ p.main.destroyed N ≤ c.val) :
    p'.live c = true ↔ c.val < p'.main.initialised N ∧ p'.main.destroyed N ≤ c.val := by
  have hupdate : ∀ c' : Fin N, c ≠ c' → c.val ≠ c'.val := fun c' hne hval => hne (Fin.ext hval)
  cases h with
  | init c' hm =>
      by_cases hc : c = c'
      · simp [hc, Main.initialised, Main.destroyed]
      · have hval := hupdate c' hc
        simp only [hm, Main.initialised, Main.destroyed] at hlive
        simp only [Function.update_of_ne hc, hlive, Main.initialised, Main.destroyed]
        omega
  | destroy c' hm =>
      by_cases hc : c = c'
      · simp [hc, Main.destroyed]
      · have hval := hupdate c' hc
        simp only [hm, Main.initialised, Main.destroyed] at hlive
        simp only [Function.update_of_ne hc, hlive, Main.initialised, Main.destroyed]
        omega
  | initEnd i hm hi | destroyEnd i hm hi =>
      simp only [hm, Main.initialised, Main.destroyed] at hlive
      simp only [hlive, Main.initialised, Main.destroyed]
      omega
  | create i hm hi | createEnd i hm hi | join i hm hi | joinEnd i hm hi =>
      rw [hlive, hm]
      rfl

/-- No thread is taken back, and a thread is joined when it has finished. -/
theorem MainMoves.threads {p p' : Program N} (h : MainMoves p p') (i : Fin N) :
    (p'.main.created N ≤ i.val → p.main.created N ≤ i.val) ∧
      (i.val < p'.main.joined N → i.val < p.main.joined N ∨ Finished p.system i) := by
  have hi := i.isLt
  cases h with
  | join c hm hfinished =>
      refine ⟨fun hle => by rw [hm]; exact hle, fun hlt => ?_⟩
      rcases Nat.lt_succ_iff_lt_or_eq.mp hlt with hlt | heq
      · exact .inl (by rw [hm]; exact hlt)
      · exact .inr (by rwa [Fin.ext heq])
  | init c hm | initEnd c hm hc | create c hm hc | createEnd c hm hc | joinEnd c hm hc
  | destroy c hm | destroyEnd c hm hc =>
      simp only [hm, Main.created, Main.joined]
      omega

theorem Program.Inv.mainStep {p p' : Program N} (h : p.Inv T) (hs : mainStep p = some p') :
    p'.Inv T ∧ p'.rank T < p.rank T := by
  have hmoves := mainStep_moves hs
  obtain ⟨hservers, hlt⟩ := hmoves.rank_lt
  refine ⟨⟨fun c => hmoves.live (h.live c), fun i hi => ?_, fun i hi => ?_, fun i => ?_⟩, ?_⟩
  · rw [hservers]
    exact h.idle i ((hmoves.threads i).1 hi)
  · have hfinished : Finished p.system i :=
      ((hmoves.threads i).2 hi).elim (h.finished i) id
    rwa [Finished, hservers]
  · rw [hservers]
    exact h.placed i
  · rw [Program.rank, hservers]
    exact Nat.add_lt_add_right hlt _

theorem Program.Inv.serverStep {p : Program N} {i : Fin N} {s : State N} (h : p.Inv T)
    (hi : i.val < p.main.created N) (hs : serverFunc T i p.system = some s) :
    Program.Inv T { p with system := s } ∧ Program.rank T { p with system := s } < p.rank T := by
  obtain ⟨server, hservers, hplaced, hlt⟩ := serverFunc_moves hs (h.placed i)
  refine ⟨⟨h.live, fun j hj => ?_, fun j hj => ?_, fun j => ?_⟩, ?_⟩
  · have hji : j ≠ i := fun hji => absurd (hji ▸ hj) (Nat.not_le.mpr hi)
    rw [hservers, Function.update_of_ne hji]
    exact h.idle j hj
  · -- a finished server does not move
    have hji : j ≠ i := by
      rintro rfl
      have hdone : (p.system.servers j).pc = .done := h.finished j hj
      rw [serverFunc, hdone] at hs
      cases hs
    rw [Finished, hservers, Function.update_of_ne hji]
    exact h.finished j hj
  · rw [hservers]
    by_cases hji : j = i
    · rwa [hji, Function.update_self]
    · rw [Function.update_of_ne hji]
      exact h.placed j
  · have htally := tally_update (fun _ server => Server.rank T server) p.system.servers i server
    simp only [Program.rank, hservers]
    omega

theorem Program.Inv.step {p p' : Program N} {e : Option (Fin N)} (h : p.Inv T)
    (hs : p.step T e = some p') : p'.Inv T ∧ p'.rank T < p.rank T := by
  cases e with
  | none => exact h.mainStep hs
  | some i =>
      unfold Program.step at hs
      dsimp only at hs
      split at hs
      · obtain ⟨s, hserver, rfl⟩ := Option.map_eq_some_iff.mp hs
        exact h.serverStep ‹_› hserver
      · cases hs

/-- A server that has a semaphore to use has not been joined, so it is live. -/
theorem Program.Inv.uses_live {p : Program N} (h : p.Inv T) {i c : Fin N}
    (huses : Uses p.system i c) : p.live c = true := by
  have hnot : ¬ Finished p.system i := by
    intro hfinished
    rw [Uses, show (p.system.servers i).pc = .done from hfinished] at huses
    exact huses
  have hloop : (p.system.servers i).pc ≠ .loop := by
    intro hloop
    rw [Uses, hloop] at huses
    exact huses
  have hcreated : i.val < p.main.created N := by
    refine Nat.lt_of_not_le fun hle => hloop ?_
    rw [h.idle i hle]
  have hjoined : ¬ i.val < p.main.joined N := fun hlt => hnot (h.finished i hlt)
  have hi := i.isLt
  have hc := c.isLt
  rw [h.live c]
  cases hm : p.main <;>
    simp only [hm, Main.created, Main.joined, Main.initialised, Main.destroyed]
      at hcreated hjoined ⊢ <;>
    omega

/-! ## Every run ends -/

/-- The channel invariant, as far as the semaphores have been initialised. -/
def Program.Channels (p : Program N) : Prop :=
  ∀ c : Fin N, c.val < p.main.initialised N →
    p.system.channels c + tally (holdsWeight c) p.system.servers = 1

theorem Program.Channels.mainStep {p p' : Program N} (h : p.Channels) (hinv : p.Inv T)
    (hs : mainStep p = some p') : p'.Channels := by
  intro c hc
  cases mainStep_moves hs with
  | init c' hm =>
      by_cases heq : c = c'
      · -- no server has been created yet
        have hidle : tally (holdsWeight c) p.system.servers = 0 := by
          refine tally_eq_zero fun i => ?_
          rw [hinv.idle i (by simp [hm, Main.created])]
          rfl
        simp [heq ▸ hidle, heq]
      · have hval : c.val ≠ c'.val := fun hval => heq (Fin.ext hval)
        simp only [Main.initialised] at hc
        simp only [Function.update_of_ne heq]
        exact h c (by simp only [hm, Main.initialised]; omega)
  | initEnd i hm hi =>
      exact h c (by rw [hm]; exact lt_of_lt_of_le c.isLt hi)
  | create i hm hi | createEnd i hm hi | join i hm hi | joinEnd i hm hi | destroy i hm
  | destroyEnd i hm hi =>
      exact h c (by rw [hm]; exact c.isLt)

/-- Without tasks a server does not get past the loop. -/
theorem Placed.of_zero {server : Server} (h : Placed 0 server) :
    server.pc = .loop ∨ server.pc = .done := by
  by_contra hpc
  rw [not_or] at hpc
  exact absurd (h.busy hpc.1 hpc.2) (Nat.not_lt_zero _)

theorem Program.Channels.serverStep {p : Program N} {i : Fin N} {s : State N}
    (h : p.Channels) (hinv : p.Inv T) (hN : N ≠ 1 ∨ T = 0) (hi : i.val < p.main.created N)
    (hs : serverFunc T i p.system = some s) : Program.Channels { p with system := s } := by
  have hall : p.main.initialised N = N := by
    cases hm : p.main with
    | init j => simp [hm, Main.created] at hi
    | create j | join j | destroy j | done => rfl
  have hchannels : ChannelInv p.system := fun c => h c (hall.symm ▸ c.isLt)
  suffices hnext : ChannelInv s from fun c _ => hnext c
  rcases hN with hN | rfl
  · exact channelInv_step (by have := i.isLt; omega) hchannels hs
  · rcases (hinv.placed i).of_zero with hpc | hpc
    · rw [serverFunc, hpc] at hs
      cases hs
      exact hchannels.move i _ fun c => by simp [holdsWeight, Holds, hpc]
    · rw [serverFunc, hpc] at hs
      cases hs

/-- **Some server can go on** while one has not finished: the one that a blocked
server waits for holds its own lower channel. -/
theorem server_unblocked {s : State N} (hN : N ≠ 1 ∨ T = 0) (hchannels : ChannelInv s)
    (hplaced : ∀ i, Placed T (s.servers i)) (hbusy : ∃ i, ¬ Finished s i) :
    ∃ i, ¬ Finished s i ∧ (serverFunc T i s).isSome := by
  have hwaits : ∀ i, ¬ Finished s i → serverFunc T i s = none →
      ∃ j, ¬ Finished s j ∧ (serverFunc T j s = none → wanted s i < wanted s j) := by
    intro i hi hblocked
    have hcases := blocked_cases hi hblocked
    have hN2 : 2 ≤ N := by
      have hpos := i.isLt
      rcases hN with hN | rfl
      · omega
      · rcases (hplaced i).of_zero with hpc | hpc <;> simp [hpc] at hcases
    have hzero : s.channels (wanted s i) = 0 := by
      rcases hcases with ⟨hpc, hc⟩ | ⟨hpc, hc⟩ <;> simpa [wanted, hpc] using hc
    -- some server holds that channel
    have hinv := hchannels (wanted s i)
    obtain ⟨j, hj⟩ := exists_of_tally_pos (w := holdsWeight (wanted s i)) (f := s.servers)
      (by omega)
    have hholds : Holds j (s.servers j).pc (wanted s i) := by
      by_contra hn
      simp [holdsWeight, hn] at hj
    have hj' : ¬ Finished s j := by
      intro hd
      rw [Finished] at hd
      simp [hd, Holds] at hholds
    refine ⟨j, hj', fun hblocked' => ?_⟩
    rcases blocked_cases hj' hblocked' with ⟨hpc, _⟩ | ⟨hpc, _⟩
    · simp [hpc, Holds] at hholds
    · -- it is blocked on its higher channel
      simp only [hpc, Holds] at hholds
      have hhigher : wanted s j = secondChannel j := if_neg (by simp [hpc])
      rw [hholds, hhigher]
      exact firstChannel_lt hN2 j
  obtain ⟨i, hi, hfree⟩ := exists_unblocked (wanted s) hwaits hbusy
  exact ⟨i, hi, Option.isSome_iff_ne_none.mpr hfree⟩

/-- What the program leaves behind. -/
structure Program.Complete (T : Nat) (p : Program N) : Prop where
  main : p.main = .done
  finished : ∀ i, Finished p.system i ∧ (p.system.servers i).taskCount = T
  channels : ∀ c, p.system.channels c = 1 ∧ p.live c = false

theorem Program.complete {p : Program N} (hinv : p.Inv T) (hchannels : p.Channels)
    (hm : p.main = .done) : p.Complete T := by
  have hfinished : ∀ i, Finished p.system i := fun i =>
    hinv.finished i (by rw [hm]; exact i.isLt)
  refine ⟨hm, fun i => ⟨hfinished i, (hinv.placed i).done (hfinished i)⟩, fun c => ⟨?_, ?_⟩⟩
  · have hnone : tally (holdsWeight c) p.system.servers = 0 := by
      refine tally_eq_zero fun i => ?_
      have hpc : (p.system.servers i).pc = .done := hfinished i
      simp [holdsWeight, Holds, hpc]
    have hc := hchannels c (by rw [hm]; exact c.isLt)
    rwa [hnone, Nat.add_zero] at hc
  · refine Bool.eq_false_iff.mpr fun hlive => ?_
    have hdestroyed := ((hinv.live c).mp hlive).2
    rw [hm] at hdestroyed
    exact absurd c.isLt (Nat.not_lt.mpr hdestroyed)

/-- Until `main` has returned it can go on, or a server that it waits for. -/
theorem Program.progress {p : Program N} (hN : N ≠ 1 ∨ T = 0) (hinv : p.Inv T)
    (hchannels : p.Channels) : p.Complete T ∨ ∃ e, (p.step T e).isSome := by
  cases hm : p.main with
  | init i =>
      refine .inr ⟨none, ?_⟩
      simp only [Program.step, Servers.mainStep, hm]
      split <;> rfl
  | create i =>
      refine .inr ⟨none, ?_⟩
      simp only [Program.step, Servers.mainStep, hm]
      split <;> rfl
  | destroy i =>
      refine .inr ⟨none, ?_⟩
      simp only [Program.step, Servers.mainStep, hm]
      split <;> rfl
  | done => exact .inl (Program.complete hinv hchannels hm)
  | join i =>
      refine .inr ?_
      by_cases hfinished : ∀ j, Finished p.system j
      · refine ⟨none, ?_⟩
        simp only [Program.step, Servers.mainStep, hm, hfinished, if_true]
        split <;> rfl
      · rw [not_forall] at hfinished
        have hinit : ChannelInv p.system := fun c => hchannels c (by rw [hm]; exact c.isLt)
        obtain ⟨j, -, hj⟩ := server_unblocked hN hinit hinv.placed hfinished
        refine ⟨some j, ?_⟩
        simp only [Program.step, hm, Main.created, if_pos j.isLt, Option.isSome_map]
        exact hj

/-- The only server has its only channel, and waits for it. -/
theorem one_server_stuck (T : Nat) : ∃ p : Program 1,
    Reachable (Program.step (T + 1)) (Program.initial 1) p ∧
      (∀ e, p.step (T + 1) e = none) ∧ p.main ≠ .done := by
  have hexec := Option.eq_some_of_isSome
    (o := exec (Program.step (T + 1)) (Program.initial 1)
      [none, none, none, none, some 0, some 0]) rfl
  refine ⟨_, Reachable.exec .start _ hexec, fun e => ?_, nofun⟩
  cases e with
  | none => rfl
  | some i =>
      rw [Fin.fin_one_eq_zero i]
      rfl

/-- **Every run ends**, with every task done, every semaphore free and
destroyed and every thread joined, for any number of servers but one and any
interleaving; a single server with a task to do waits for itself. -/
theorem servers_end_iff (N T : Nat) :
    Ends (Program.step T) (fun _ _ => True) (Program.Complete T) (Program.initial N) ↔
      N ≠ 1 ∨ T = 0 := by
  constructor
  · intro hends
    by_contra hnot
    rw [not_or, not_not] at hnot
    obtain ⟨rfl, hT⟩ := hnot
    obtain ⟨T, rfl⟩ := Nat.exists_eq_succ_of_ne_zero hT
    obtain ⟨p, hreach, hstuck, hmain⟩ := one_server_stuck T
    exact hmain (hends.stuck hreach fun e _ => hstuck e).main
  · intro hN
    refine Ends.rule (fun p => p.Inv T ∧ p.Channels) (Program.rank T)
      (fun e p p' ⟨hinv, hchannels⟩ _ hs => ?_)
      (fun p ⟨hinv, hchannels⟩ => ?_) ⟨inv_initial_main, nofun⟩
    · obtain ⟨hinv', hlt⟩ := hinv.step hs
      refine ⟨⟨hinv', ?_⟩, hlt⟩
      cases e with
      | none => exact hchannels.mainStep hinv hs
      | some i =>
          unfold Program.step at hs
          dsimp only at hs
          split at hs
          · obtain ⟨s, hserver, rfl⟩ := Option.map_eq_some_iff.mp hs
            exact hchannels.serverStep hinv hN ‹_› hserver
          · cases hs
    · exact (Program.progress hN hinv hchannels).imp_right fun ⟨e, he⟩ => ⟨e, trivial, he⟩

/-- **No server touches a semaphore that is not there**: in every interleaving, for
any number of servers, each `sem_wait` and `sem_post` falls between the
`sem_init` and the `sem_destroy` of its channel. -/
theorem semaphores_live {p : Program N} (h : Reachable (Program.step T) (Program.initial N) p)
    {i c : Fin N} (huses : Uses p.system i c) : p.live c = true :=
  (h.invariant (I := Program.Inv T) inv_initial_main
    fun _ _ _ hinv _ hs => (hinv.step hs).1).uses_live huses

/-- The first of two servers waits while `main` still creates the other. -/
theorem semaphores_live_two : ∃ p, Reachable (Program.step 3) (Program.initial 2) p ∧
    p.main = .create 1 ∧ Uses p.system 0 0 ∧ p.live 0 = true := by
  have hexec := Option.eq_some_of_isSome
    (o := exec (Program.step 3) (Program.initial 2) [none, none, none, none, some 0]) rfl
  have hreach := Reachable.exec .start _ hexec
  exact ⟨_, hreach, rfl, rfl, semaphores_live hreach (i := 0) (c := 0) rfl⟩

end OsInParts.Servers
