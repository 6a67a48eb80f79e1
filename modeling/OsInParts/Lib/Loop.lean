import Mathlib.Data.List.FinRange
import Mathlib.Order.Basic

/-!
# Loop — loops over an explicit state, with their invariant and variant rules

One iteration of a loop goes on in a new state, leaves the loop with a
result, or has no defined behaviour. `run` iterates it on a fuel that only
counts iterations: a loop `Returns` when some number of iterations leaves it,
and every rule below is an induction on that number done once.

* `Returns.rule` — partial correctness from an invariant;
* `returns_of_variant` — total correctness from an invariant and a variant,
  with the number of iterations bounded by the variant;
* `Reaches.rule` — an invariant at the loop head, whether or not the loop
  ever returns;
* `not_returns_of_undefined` — a `while` loop whose first turn has no defined
  behaviour;
* `for_rule` — a loop over `0, …, n - 1` with an invariant indexed by the
  number of turns.
-/

namespace Lib.Loop

variable {σ ρ : Type*}

/-- What one iteration does. -/
inductive Next (σ ρ : Type*) where
  | again (s : σ)
  | exit (r : ρ)
  | undefined

/-- At most `k` iterations from `s`. -/
def run (body : σ → Next σ ρ) : Nat → σ → Next σ ρ
  | 0, s => .again s
  | k + 1, s =>
      match body s with
      | .again s' => run body k s'
      | .exit r => .exit r
      | .undefined => .undefined

/-- The loop leaves with `r`. -/
def Returns (body : σ → Next σ ρ) (s : σ) (r : ρ) : Prop :=
  ∃ k, run body k s = .exit r

/-- The loop head is reached in state `s'`. -/
def Reaches (body : σ → Next σ ρ) (s s' : σ) : Prop :=
  ∃ k, run body k s = .again s'

/-- The body of `while (c) body`, where `none` is undefined behaviour. -/
def whileBody (c : σ → Bool) (body : σ → Option σ) (s : σ) : Next σ σ :=
  if c s then
    match body s with
    | some s' => .again s'
    | none => .undefined
  else .exit s

variable {body : σ → Next σ ρ} {s s' : σ} {r r' : ρ}

theorem run_again (h : body s = .again s') (k : Nat) :
    run body (k + 1) s = run body k s' := by
  rw [run, h]

theorem run_exit (h : body s = .exit r) (k : Nat) : run body (k + 1) s = .exit r := by
  rw [run, h]

theorem run_exit_of_pos (h : body s = .exit r) {k : Nat} (hk : 0 < k) :
    run body k s = .exit r := by
  cases k with
  | zero => omega
  | succ k => exact run_exit h k

theorem run_undefined (h : body s = .undefined) (k : Nat) :
    run body (k + 1) s = .undefined := by
  rw [run, h]

/-- More fuel does not change a result. -/
theorem run_exit_mono {k : Nat} (h : run body k s = .exit r) (l : Nat) :
    run body (k + l) s = .exit r := by
  induction k generalizing s with
  | zero => cases h
  | succ k ih =>
      rw [Nat.succ_add]
      cases hb : body s with
      | again s₁ =>
          rw [run_again hb] at h ⊢
          exact ih h
      | exit r₁ =>
          rw [run_exit hb] at h ⊢
          exact h
      | undefined =>
          rw [run_undefined hb] at h
          cases h

theorem Returns.unique (h : Returns body s r) (h' : Returns body s r') : r = r' := by
  obtain ⟨k, hk⟩ := h
  obtain ⟨l, hl⟩ := h'
  have hk' := run_exit_mono hk l
  rw [Nat.add_comm, run_exit_mono hl k] at hk'
  cases hk'
  rfl

theorem Reaches.refl (body : σ → Next σ ρ) (s : σ) : Reaches body s s := ⟨0, rfl⟩

/-! ## The rules -/

/-- **Partial correctness**: what every iteration preserves holds whenever
the loop returns. -/
theorem Returns.rule (I : σ → Prop) (Q : ρ → Prop)
    (hagain : ∀ s s', I s → body s = .again s' → I s')
    (hexit : ∀ s r, I s → body s = .exit r → Q r)
    (h : Returns body s r) (hI : I s) : Q r := by
  obtain ⟨k, hk⟩ := h
  induction k generalizing s with
  | zero => cases hk
  | succ k ih =>
      cases hb : body s with
      | again s₁ =>
          rw [run_again hb] at hk
          exact ih (hagain s s₁ hI hb) hk
      | exit r₁ =>
          rw [run_exit hb] at hk
          cases hk
          exact hexit s r hI hb
      | undefined =>
          rw [run_undefined hb] at hk
          cases hk

/-- **Total correctness**: an invariant under which every iteration either
leaves with a good result or lowers the variant bounds the iterations. -/
theorem returns_of_variant (I : σ → Prop) (Q : ρ → Prop) (μ : σ → Nat)
    (hstep : ∀ s, I s →
      (∃ s', body s = .again s' ∧ I s' ∧ μ s' < μ s) ∨ ∃ r, body s = .exit r ∧ Q r)
    (hI : I s) : ∃ r, run body (μ s + 1) s = .exit r ∧ Q r := by
  generalize hm : μ s = m
  induction m using Nat.strongRecOn generalizing s with
  | _ m ih =>
      subst hm
      rcases hstep s hI with ⟨s', hb, hI', hlt⟩ | ⟨r, hb, hq⟩
      · obtain ⟨r, hr, hq⟩ := ih (μ s') hlt hI' rfl
        refine ⟨r, ?_, hq⟩
        rw [run_again hb, show μ s = (μ s' + 1) + (μ s - (μ s' + 1)) by omega]
        exact run_exit_mono hr _
      · exact ⟨r, run_exit hb _, hq⟩

/-- **An invariant at the loop head.** -/
theorem Reaches.rule (I : σ → Prop)
    (hagain : ∀ s s', I s → body s = .again s' → I s')
    (h : Reaches body s s') (hI : I s) : I s' := by
  obtain ⟨k, hk⟩ := h
  induction k generalizing s with
  | zero => cases hk; exact hI
  | succ k ih =>
      cases hb : body s with
      | again s₁ =>
          rw [run_again hb] at hk
          exact ih (hagain s s₁ hI hb) hk
      | exit r₁ =>
          rw [run_exit hb] at hk
          cases hk
      | undefined =>
          rw [run_undefined hb] at hk
          cases hk

/-! ## `while` loops -/

section While

variable {c : σ → Bool} {f : σ → Option σ}

theorem whileBody_again : whileBody c f s = .again s' ↔ c s = true ∧ f s = some s' := by
  unfold whileBody
  cases hc : c s <;> cases hf : f s <;> simp

theorem whileBody_exit {s' : σ} : whileBody c f s = .exit s' ↔ c s = false ∧ s' = s := by
  unfold whileBody
  cases hc : c s <;> cases hf : f s <;> simp [eq_comm]

/-- A turn without defined behaviour, at the start. -/
theorem not_returns_of_undefined (hc : c s = true) (hf : f s = none) (s' : σ) :
    ¬ Returns (whileBody c f) s s' := by
  rintro ⟨k, hk⟩
  have hb : whileBody c f s = .undefined := by rw [whileBody, if_pos hc, hf]
  cases k with
  | zero => cases hk
  | succ k =>
      rw [run_undefined hb] at hk
      cases hk

/-- Partial correctness of a `while` loop: the invariant and the negated
condition at the exit. -/
theorem Returns.while_rule (I : σ → Prop)
    (hbody : ∀ s s', I s → c s = true → f s = some s' → I s')
    (h : Returns (whileBody c f) s s') (hI : I s) : I s' ∧ c s' = false :=
  h.rule I (fun t => I t ∧ c t = false)
    (fun s s' hs hb => hbody s s' hs (whileBody_again.mp hb).1 (whileBody_again.mp hb).2)
    (fun s t hs hb => by
      obtain ⟨hc, rfl⟩ := whileBody_exit.mp hb
      exact ⟨hs, hc⟩) hI

/-- **Simulation**: a relation that every turn of the first loop lets the
second one keep carries over to their results. -/
theorem Returns.while_simulate {τ : Type*} {c' : τ → Bool} {g : τ → Option τ}
    (R : σ → τ → Prop) (hcond : ∀ s t, R s t → c' t = c s)
    (hbody : ∀ s t s₁, R s t → f s = some s₁ → ∃ t₁, g t = some t₁ ∧ R s₁ t₁)
    (h : Returns (whileBody c f) s s') {t : τ} (hR : R s t) :
    ∃ t', Returns (whileBody c' g) t t' ∧ R s' t' ∧ c s' = false := by
  obtain ⟨k, hk⟩ := h
  induction k generalizing s t with
  | zero => cases hk
  | succ k ih =>
      cases hb : whileBody c f s with
      | again s₁ =>
          rw [run_again hb] at hk
          obtain ⟨hc, hf⟩ := whileBody_again.mp hb
          obtain ⟨t₁, hg, hR₁⟩ := hbody s t s₁ hR hf
          obtain ⟨t', ⟨l, hl⟩, hR', hdone⟩ := ih hR₁ hk
          have hb' : whileBody c' g t = .again t₁ :=
            whileBody_again.mpr ⟨(hcond s t hR).trans hc, hg⟩
          exact ⟨t', ⟨l + 1, by rw [run_again hb', hl]⟩, hR', hdone⟩
      | exit r =>
          rw [run_exit hb] at hk
          cases hk
          obtain ⟨hc, rfl⟩ := whileBody_exit.mp hb
          have hb' : whileBody c' g t = .exit t :=
            whileBody_exit.mpr ⟨(hcond _ t hR).trans hc, rfl⟩
          exact ⟨t, ⟨1, by rw [run_exit hb']⟩, hR, hc⟩
      | undefined =>
          rw [run_undefined hb] at hk
          cases hk

/-- Total correctness of a `while` loop, with the number of turns. -/
theorem while_run (I : σ → Prop) (μ : σ → Nat)
    (hbody : ∀ s, I s → c s = true → ∃ s', f s = some s' ∧ I s' ∧ μ s' < μ s)
    (hI : I s) : ∃ s', run (whileBody c f) (μ s + 1) s = .exit s' ∧ I s' ∧ c s' = false :=
  returns_of_variant I (fun t => I t ∧ c t = false) μ (fun s hs => by
    cases hc : c s with
    | true =>
        obtain ⟨s', hf, hI', hlt⟩ := hbody s hs hc
        exact .inl ⟨s', whileBody_again.mpr ⟨hc, hf⟩, hI', hlt⟩
    | false => exact .inr ⟨s, whileBody_exit.mpr ⟨hc, rfl⟩, hs, hc⟩) hI

/-- Total correctness of a `while` loop. -/
theorem while_returns (I : σ → Prop) (μ : σ → Nat)
    (hbody : ∀ s, I s → c s = true → ∃ s', f s = some s' ∧ I s' ∧ μ s' < μ s)
    (hI : I s) : ∃ s', Returns (whileBody c f) s s' ∧ I s' ∧ c s' = false := by
  obtain ⟨s', hs', hq⟩ := while_run I μ hbody hI
  exact ⟨s', ⟨_, hs'⟩, hq⟩

/-- A `while` loop on a number of turns that is large enough; `none` if it is
not, or on undefined behaviour. -/
def runWhile (c : σ → Bool) (f : σ → Option σ) (turns : Nat) (s : σ) : Option σ :=
  match run (whileBody c f) turns s with
  | .exit s' => some s'
  | _ => none

theorem runWhile_succ (turns : Nat) (s : σ) :
    runWhile c f (turns + 1) s = if c s then (f s).bind (runWhile c f turns) else some s := by
  rw [runWhile, run, whileBody]
  cases c s with
  | false => rfl
  | true =>
      cases f s with
      | none => rfl
      | some s' => rfl

/-- Total correctness with the turns bounded by the variant. -/
theorem runWhile_spec (I : σ → Prop) (μ : σ → Nat)
    (hbody : ∀ s, I s → c s = true → ∃ s', f s = some s' ∧ I s' ∧ μ s' < μ s)
    (hI : I s) (turns : Nat) (hturns : μ s < turns) :
    ∃ s', runWhile c f turns s = some s' ∧ I s' ∧ c s' = false := by
  obtain ⟨s', hs', hq⟩ := while_run I μ hbody hI
  refine ⟨s', ?_, hq⟩
  have hmore := run_exit_mono hs' (turns - (μ s + 1))
  rw [Nat.add_sub_cancel' hturns] at hmore
  rw [runWhile, hmore]

end While

/-! ## `for` loops -/

/-- **A `for` loop** over all indices, where `none` is undefined behaviour. -/
theorem for_rule {n : Nat} {f : σ → Fin n → Option σ} (I : Nat → σ → Prop)
    (hstep : ∀ (i : Fin n) s, I i s → ∃ s', f s i = some s' ∧ I (i + 1) s') (h : I 0 s) :
    ∃ s', (List.finRange n).foldlM f s = some s' ∧ I n s' := by
  suffices hdrop : ∀ m k s, k + m = n → I k s →
      ∃ s', ((List.finRange n).drop k).foldlM f s = some s' ∧ I n s' from
    hdrop n 0 s (Nat.zero_add n) h
  intro m
  induction m with
  | zero =>
      intro k s hk hI
      obtain rfl : k = n := hk
      exact ⟨s, by rw [List.drop_of_length_le List.length_finRange.le]; rfl, hI⟩
  | succ m ih =>
      intro k s hk hI
      have hlt : k < (List.finRange n).length := by
        rw [List.length_finRange]
        omega
      obtain ⟨s₁, h1, hI₁⟩ := hstep ⟨k, by omega⟩ s hI
      obtain ⟨s₂, h2, hI₂⟩ := ih (k + 1) s₁ (by omega) hI₁
      refine ⟨s₂, ?_, hI₂⟩
      rw [List.drop_eq_getElem_cons hlt, List.foldlM_cons, List.getElem_finRange]
      exact Option.bind_eq_some_iff.mpr ⟨s₁, h1, h2⟩

end Lib.Loop
