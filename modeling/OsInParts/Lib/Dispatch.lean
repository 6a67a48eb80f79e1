import Mathlib.Data.Finset.Card
import Mathlib.Data.Fintype.Card
import Mathlib.Logic.Equiv.Basic

/-!
# Dispatch — serving jobs by remaining work, then arrival

A board lists what a dispatcher knows of each job. A turn waits while no job
is eligible; otherwise it serves an eligible job with the least remaining
work, of those one that arrived first. `Turn` leaves ties beyond that open.

They do not matter: of two jobs that arrived together at most one has been
started, and it is then the shorter one (`Ordered.first`). So a tie is
between two jobs with the same entry, and boards that differ in the order of
their entries stay so, whichever of them each turn serves (`Turn.alike`).
-/

namespace Lib.Dispatch

/-- What is known of a job: `start` from the first time it is served,
`completion` once it is done. -/
@[ext] structure Entry where
  arrival : Int
  work : Int
  remaining : Int
  done : Bool
  start : Option Int
  completion : Option Int

/-- The job is served for `d` units from `now` on. -/
def Entry.serve (x : Entry) (d now : Int) : Entry :=
  { x with
    remaining := x.remaining - d
    done := decide (x.remaining - d = 0)
    start := if x.remaining = x.work then some now else x.start
    completion := if x.remaining - d = 0 then some (now + d) else none }

/-- The entries of all jobs, the clock, the number of jobs done and what their
turnaround and response times have been added up to. -/
@[ext] structure Board (ι τ : Type*) where
  entries : ι → Entry
  now : Int
  count : Nat
  turnaround : τ
  response : τ

section

variable {ι τ : Type*} {add : τ → Int → τ}

def Board.wait (b : Board ι τ) : Board ι τ := { b with now := b.now + 1 }

/-- `add` adds a time to a total. -/
def Board.serve [DecidableEq ι] (add : τ → Int → τ) (b : Board ι τ) (k : ι) (d : Int) :
    Board ι τ :=
  let x := (b.entries k).serve d b.now
  { entries := Function.update b.entries k x
    now := b.now + d
    count := if x.done then b.count + 1 else b.count
    turnaround :=
      if x.done then add b.turnaround (x.completion.getD 0 - x.arrival) else b.turnaround
    response := if x.done then add b.response (x.start.getD 0 - x.arrival) else b.response }

/-- Arrived and not done. -/
def Board.Eligible (b : Board ι τ) (i : ι) : Prop :=
  (b.entries i).arrival ≤ b.now ∧ (b.entries i).done = false

/-- Eligible, with the least remaining work and then the earliest arrival. -/
structure Board.Best (b : Board ι τ) (k : ι) : Prop where
  eligible : b.Eligible k
  least : ∀ i, b.Eligible i →
    (b.entries k).remaining < (b.entries i).remaining ∨
      (b.entries k).remaining = (b.entries i).remaining ∧
        (b.entries k).arrival ≤ (b.entries i).arrival

/-- **One turn**: `amount` is how long a job is served, and `InRange` what the
clock can hold. -/
inductive Turn [DecidableEq ι] (add : τ → Int → τ) (amount : Entry → Int)
    (InRange : Int → Prop) (b : Board ι τ) : Board ι τ → Prop where
  | wait (hidle : ∀ i, ¬ b.Eligible i) (hrange : InRange (b.now + 1)) :
      Turn add amount InRange b b.wait
  | serve {k : ι} (hk : b.Best k) (hrange : InRange (b.now + amount (b.entries k))) :
      Turn add amount InRange b (b.serve add k (amount (b.entries k)))

/-! ## Boards in another order -/

def Board.rearrange (b : Board ι τ) (e : Equiv.Perm ι) : Board ι τ :=
  { b with entries := fun i => b.entries (e i) }

/-- The same entries in another order. -/
def Alike (b b' : Board ι τ) : Prop := ∃ e : Equiv.Perm ι, b' = b.rearrange e

theorem eligible_rearrange {b : Board ι τ} {e : Equiv.Perm ι} {i : ι} :
    (b.rearrange e).Eligible i ↔ b.Eligible (e i) := Iff.rfl

theorem best_rearrange {b : Board ι τ} {e : Equiv.Perm ι} {k : ι} :
    (b.rearrange e).Best k ↔ b.Best (e k) := by
  constructor
  · rintro ⟨hk, hleast⟩
    refine ⟨hk, fun i hi => ?_⟩
    have hcompare := hleast (e.symm i) (by
      rw [eligible_rearrange, e.apply_symm_apply]
      exact hi)
    simpa only [Board.rearrange, e.apply_symm_apply] using hcompare
  · rintro ⟨hk, hleast⟩
    exact ⟨hk, fun i hi => hleast (e i) hi⟩

variable [DecidableEq ι]

theorem serve_rearrange (b : Board ι τ) (e : Equiv.Perm ι) (k : ι) (d : Int) :
    (b.rearrange e).serve add k d = (b.serve add (e k) d).rearrange e := by
  ext1
  · funext i
    by_cases hi : i = k
    · subst hi
      simp [Board.serve, Board.rearrange]
    · have hne : e i ≠ e k := fun heq => hi (e.injective heq)
      simp [Board.serve, Board.rearrange, hi, hne]
  · rfl
  · rfl
  · rfl
  · rfl

/-- Serving one of two jobs with the same entry. -/
theorem serve_same {b : Board ι τ} {j k : ι} (h : b.entries j = b.entries k) (d : Int) :
    b.serve add j d = (b.serve add k d).rearrange (Equiv.swap j k) := by
  ext1
  · funext i
    by_cases hj : i = j
    · subst hj
      simp [Board.serve, Board.rearrange, h]
    · by_cases hk : i = k
      · subst hk
        simp [Board.serve, Board.rearrange, Ne.symm hj, h, hj]
      · simp [Board.serve, Board.rearrange, hj, hk, Equiv.swap_apply_of_ne_of_ne]
  all_goals simp [Board.serve, Board.rearrange, h]

/-! ## What dispatching keeps -/

variable [Fintype ι]

/-- **The invariant of a board.** -/
structure Ordered (b : Board ι τ) : Prop where
  pos : ∀ i, 1 ≤ (b.entries i).work
  le : ∀ i, (b.entries i).remaining ≤ (b.entries i).work
  start : ∀ i, (b.entries i).done = false → (b.entries i).remaining = (b.entries i).work →
    (b.entries i).start = none
  completion : ∀ i, (b.entries i).done = false → (b.entries i).completion = none
  /-- of two jobs that arrived together only the shorter one has been started -/
  first : ∀ i j, i ≠ j → (b.entries i).done = false → (b.entries j).done = false →
    (b.entries i).arrival = (b.entries j).arrival →
    (b.entries i).remaining < (b.entries i).work →
    (b.entries i).remaining < (b.entries j).remaining ∧
      (b.entries j).remaining = (b.entries j).work
  count : b.count = (Finset.univ.filter fun i => (b.entries i).done = true).card

/-- **A tie** is between two jobs with the same entry. -/
theorem Ordered.tie {b : Board ι τ} (h : Ordered b) {j k : ι} (hj : (b.entries j).done = false)
    (hk : (b.entries k).done = false) (harrival : (b.entries j).arrival = (b.entries k).arrival)
    (hremaining : (b.entries j).remaining = (b.entries k).remaining) :
    b.entries j = b.entries k := by
  by_cases hjk : j = k
  · rw [hjk]
  · have hfreshj : (b.entries j).remaining = (b.entries j).work := by
      by_contra hne
      have hlt := (h.first j k hjk hj hk harrival (lt_of_le_of_ne (h.le j) hne)).1
      omega
    have hfreshk : (b.entries k).remaining = (b.entries k).work := by
      by_contra hne
      have hlt := (h.first k j (Ne.symm hjk) hk hj harrival.symm
        (lt_of_le_of_ne (h.le k) hne)).1
      omega
    apply Entry.ext
    · exact harrival
    · rw [← hfreshj, ← hfreshk, hremaining]
    · exact hremaining
    · rw [hj, hk]
    · rw [h.start j hj hfreshj, h.start k hk hfreshk]
    · rw [h.completion j hj, h.completion k hk]

/-- Two jobs that may be served next have the same entry. -/
theorem Ordered.best_unique {b : Board ι τ} (h : Ordered b) {j k : ι} (hj : b.Best j)
    (hk : b.Best k) : b.entries j = b.entries k := by
  have h1 := hj.least k hk.eligible
  have h2 := hk.least j hj.eligible
  exact h.tie hj.eligible.2 hk.eligible.2 (by omega) (by omega)

omit [Fintype ι] in
theorem serve_self (b : Board ι τ) (k : ι) (d : Int) :
    (b.serve add k d).entries k = (b.entries k).serve d b.now := by
  simp [Board.serve]

omit [Fintype ι] in
theorem serve_of_ne {b : Board ι τ} {k i : ι} (h : i ≠ k) (d : Int) :
    (b.serve add k d).entries i = b.entries i := by
  simp [Board.serve, h]

/-- The number of jobs done. -/
theorem Ordered.serve_count {b : Board ι τ} (h : Ordered b) {k : ι}
    (hk : (b.entries k).done = false) (d : Int) :
    (b.serve add k d).count
      = (Finset.univ.filter fun i => ((b.serve add k d).entries i).done = true).card := by
  have hother : ∀ i, i ≠ k → ((b.serve add k d).entries i).done = (b.entries i).done :=
    fun i hi => by rw [serve_of_ne hi]
  cases hdone : ((b.entries k).serve d b.now).done with
  | false =>
      have hsame : (Finset.univ.filter fun i => ((b.serve add k d).entries i).done = true)
          = Finset.univ.filter fun i => (b.entries i).done = true := by
        apply Finset.filter_congr
        intro i _
        by_cases hi : i = k
        · rw [hi, serve_self, hdone, hk]
        · rw [hother i hi]
      rw [hsame, ← h.count]
      simp [Board.serve, hdone]
  | true =>
      have hmore : (Finset.univ.filter fun i => ((b.serve add k d).entries i).done = true)
          = insert k (Finset.univ.filter fun i => (b.entries i).done = true) := by
        ext i
        simp only [Finset.mem_filter, Finset.mem_univ, true_and, Finset.mem_insert]
        by_cases hi : i = k
        · simp [hi, serve_self, hdone]
        · simp [hi, hother i hi]
      rw [hmore, Finset.card_insert_of_notMem (by simp [hk]), ← h.count]
      simp [Board.serve, hdone]

/-- Serving the best job keeps the invariant: a job that arrived with it has
not been started and is not shorter. -/
theorem Ordered.serve {b : Board ι τ} (h : Ordered b) {k : ι} (hk : b.Best k) {d : Int}
    (hd : 1 ≤ d) : Ordered (b.serve add k d) := by
  have hpending := hk.eligible.2
  -- what `first` and `least` say of a job that arrived with `k`
  have htogether : ∀ j, j ≠ k → (b.entries j).done = false →
      (b.entries k).arrival = (b.entries j).arrival →
      (b.entries k).remaining ≤ (b.entries j).remaining ∧
        (b.entries j).remaining = (b.entries j).work := by
    intro j hj hjp harrival
    have hle : (b.entries k).remaining ≤ (b.entries j).remaining := by
      rcases hk.least j ⟨harrival ▸ hk.eligible.1, hjp⟩ with hlt | ⟨heq, -⟩
      · exact hlt.le
      · exact heq.le
    refine ⟨hle, ?_⟩
    by_contra hne
    have hlt := (h.first j k hj hjp hpending harrival.symm
      (lt_of_le_of_ne (h.le j) hne)).1
    omega
  constructor
  · intro i
    by_cases hi : i = k
    · rw [hi, serve_self]
      exact h.pos k
    · rw [serve_of_ne hi]
      exact h.pos i
  · intro i
    by_cases hi : i = k
    · have hle := h.le k
      rw [hi, serve_self]
      show (b.entries k).remaining - d ≤ (b.entries k).work
      omega
    · rw [serve_of_ne hi]
      exact h.le i
  · intro i
    by_cases hi : i = k
    · rw [hi, serve_self]
      intro _ hfresh
      have hle := h.le k
      have heq : (b.entries k).remaining - d = (b.entries k).work := hfresh
      omega
    · rw [serve_of_ne hi]
      exact h.start i
  · intro i
    by_cases hi : i = k
    · rw [hi, serve_self]
      intro hdone
      have hne : ¬ (b.entries k).remaining - d = 0 := of_decide_eq_false hdone
      exact if_neg hne
    · rw [serve_of_ne hi]
      exact h.completion i
  · intro i j hij
    by_cases hi : i = k
    · subst hi
      rw [serve_self, serve_of_ne (Ne.symm hij)]
      intro _ hjp harrival _
      obtain ⟨hle, hfresh⟩ := htogether j (Ne.symm hij) hjp harrival
      refine ⟨?_, hfresh⟩
      show (b.entries i).remaining - d < (b.entries j).remaining
      omega
    · by_cases hj : j = k
      · subst hj
        rw [serve_self, serve_of_ne hi]
        intro hip _ harrival hstarted
        -- `i` arrived with the job served, so it has not been started
        have hfresh := (htogether i hi hip harrival.symm).2
        omega
      · rw [serve_of_ne hi, serve_of_ne hj]
        exact h.first i j hij
  · exact h.serve_count hpending d

variable {amount : Entry → Int} {InRange : Int → Prop}

/-- Every turn keeps the invariant. -/
theorem Turn.ordered {b c : Board ι τ} (hturn : Turn add amount InRange b c) (h : Ordered b)
    (hamount : ∀ x : Entry, 1 ≤ x.work → 1 ≤ amount x) : Ordered c := by
  cases hturn with
  | wait => exact ⟨h.pos, h.le, h.start, h.completion, h.first, h.count⟩
  | serve hk => exact h.serve hk (hamount _ (h.pos _))

omit [Fintype ι] in
theorem Turn.work_eq {b c : Board ι τ} (hturn : Turn add amount InRange b c) (i : ι) :
    (c.entries i).work = (b.entries i).work := by
  cases hturn with
  | wait => rfl
  | @serve k =>
      by_cases hi : i = k
      · rw [hi, serve_self]
        rfl
      · rw [serve_of_ne hi]

omit [DecidableEq ι] in
/-- A count of all jobs means that all are done. -/
theorem Ordered.all_done {b : Board ι τ} (h : Ordered b) (hcount : b.count = Fintype.card ι)
    (i : ι) : (b.entries i).done = true := by
  rw [h.count, ← Finset.card_univ, Finset.card_filter_eq_iff] at hcount
  exact hcount i (Finset.mem_univ i)

omit [Fintype ι] in
/-- A board that is alike has a turn to take. -/
theorem Turn.exists_alike {b b' c : Board ι τ} (hturn : Turn add amount InRange b c)
    (halike : Alike b b') : ∃ c', Turn add amount InRange b' c' := by
  obtain ⟨e, rfl⟩ := halike
  cases hturn with
  | wait hidle hrange => exact ⟨_, .wait (fun i hi => hidle (e i) hi) hrange⟩
  | @serve k hk hrange =>
      refine ⟨_, .serve (k := e.symm k) (best_rearrange.mpr ?_) ?_⟩
      · rwa [e.apply_symm_apply]
      · simpa only [Board.rearrange, e.apply_symm_apply] using hrange

/-- **The order of the entries does not matter**: turns of boards that are
alike, whatever ties they break, lead to boards that are alike. -/
theorem Turn.alike {b b' c c' : Board ι τ} (h : Ordered b) (halike : Alike b b')
    (hturn : Turn add amount InRange b c) (hturn' : Turn add amount InRange b' c') :
    Alike c c' := by
  obtain ⟨e, rfl⟩ := halike
  cases hturn with
  | wait hidle =>
      cases hturn' with
      | wait => exact ⟨e, rfl⟩
      | @serve k' hk' => exact absurd hk'.eligible (hidle (e k'))
  | @serve k hk =>
      cases hturn' with
      | wait hidle' =>
          refine absurd (eligible_rearrange.mpr ?_) (hidle' (e.symm k))
          rw [e.apply_symm_apply]
          exact hk.eligible
      | @serve k' hk' =>
          have hsame := h.best_unique (best_rearrange.mp hk') hk
          have hentry : (b.rearrange e).entries k' = b.entries k := hsame
          rw [hentry, serve_rearrange, serve_same hsame]
          exact ⟨e.trans (Equiv.swap (e k') k), rfl⟩

end

end Lib.Dispatch
