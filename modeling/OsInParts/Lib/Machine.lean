import Mathlib.Data.List.Basic
import Mathlib.Logic.Function.Basic

/-!
# Machine — deterministic input/output machines and their simulation

A machine reads one input at a time, answers it, and either goes on in a new
state or halts (`none`). Two machines agree on every input sequence as soon
as one relation between their states is kept by every step that both answer
alike (`Simulates`): this is the induction each refinement result uses once.
-/

namespace Lib.Machine

variable {σ τ ι o : Type*}

/-- A machine: the answer to one input, and the state it goes on in (`none`
when the machine stops there). -/
abbrev Step (σ ι o : Type*) := σ → ι → o × Option σ

/-- The answers to a sequence of inputs, up to and including the one the
machine stops at. -/
def outputs (f : Step σ ι o) : σ → List ι → List o
  | _, [] => []
  | s, i :: is =>
      match f s i with
      | (a, none) => [a]
      | (a, some s') => a :: outputs f s' is

/-- The state after a sequence of inputs, `none` once the machine stopped. -/
def final (f : Step σ ι o) : σ → List ι → Option σ
  | s, [] => some s
  | s, i :: is => (f s i).2.bind fun s' => final f s' is

/-- Both successor states are related, or both machines stopped. -/
def Continues (R : σ → τ → Prop) : Option σ → Option τ → Prop
  | some s, some t => R s t
  | none, none => True
  | _, _ => False

/-- `R` is a simulation between `f` and `g`: from related states every input
gets the same answer and leads to related states. -/
def Simulates (R : σ → τ → Prop) (f : Step σ ι o) (g : Step τ ι o) : Prop :=
  ∀ s t i, R s t → (f s i).1 = (g t i).1 ∧ Continues R (f s i).2 (g t i).2

theorem Simulates.outputs_eq {R : σ → τ → Prop} {f : Step σ ι o}
    {g : Step τ ι o} (h : Simulates R f g) :
    ∀ (is : List ι) (s : σ) (t : τ), R s t → outputs f s is = outputs g t is := by
  intro is
  induction is with
  | nil => intro s t _; rfl
  | cons i is ih =>
      intro s t hR
      obtain ⟨ha, hc⟩ := h s t i hR
      rcases hf : f s i with ⟨a, _ | s'⟩ <;> rcases hg : g t i with ⟨b, _ | t'⟩ <;>
        simp only [hf, hg, Continues] at ha hc
      · simp [outputs, hf, hg, ha]
      · simp only [outputs, hf, hg, ha, ih s' t' hc]

theorem Simulates.final {R : σ → τ → Prop} {f : Step σ ι o} {g : Step τ ι o}
    (h : Simulates R f g) :
    ∀ (is : List ι) (s : σ) (t : τ), R s t →
      Continues R (final f s is) (final g t is) := by
  intro is
  induction is with
  | nil => intro s t hR; exact hR
  | cons i is ih =>
      intro s t hR
      obtain ⟨_, hc⟩ := h s t i hR
      rcases hf : (f s i).2 with _ | s' <;> rcases hg : (g t i).2 with _ | t' <;>
        simp only [hf, hg, Continues] at hc
      · simp [Machine.final, hf, hg, Continues]
      · simpa only [Machine.final, hf, hg, Option.bind_some] using ih s' t' hc

/-- After one input sequence the machine goes on with the next from where it is. -/
theorem final_append (f : Step σ ι o) (s : σ) (is js : List ι) :
    final f s (is ++ js) = (final f s is).bind fun s' => final f s' js := by
  induction is generalizing s with
  | nil => rfl
  | cons i is ih =>
      rcases h : (f s i).2 with _ | s'
      · simp [final, h]
      · simpa [final, h] using ih s'

/-- One input more gets one answer more. -/
theorem outputs_concat {f : Step σ ι o} {s s' : σ} {is : List ι} (h : final f s is = some s')
    (i : ι) : outputs f s (is ++ [i]) = outputs f s is ++ [(f s' i).1] := by
  induction is generalizing s with
  | nil =>
      obtain rfl : s = s' := Option.some.inj h
      rcases hi : f s i with ⟨a, _ | t⟩ <;> simp [outputs, hi]
  | cons j is ih =>
      rw [List.cons_append, outputs, outputs]
      rcases hj : f s j with ⟨a, _ | t⟩
      · simp [final, hj] at h
      · have ht : final f t is = some s' := by simpa [final, hj] using h
        dsimp only
        rw [ih ht, List.cons_append]

end Lib.Machine
