import OsInParts.Lib.SecondChance
import Mathlib.Data.Finset.Card
import Mathlib.Data.Fintype.Card

/-!
# ClockWindow — the clock faults at most once per page in a small window

`clockRequest` is the clock without the lowest-empty-frame rule: every fault
goes through the search. A page loaded into frame `f` stays there until the
hand has gone round once, which clears its bit, and once more, which finds
the bit still clear. On the second round every frame the hand passes holds a
page of the window: its bit was set again after the first round, or it was
replaced. So when the page is evicted all `n` frames hold pages of the
window, and the page that evicts it is one more (`missed_nodup`).
-/

namespace Lib.SecondChance

variable {α : Type*} [DecidableEq α] {n : Nat}

/-- One request: a hit sets the bit, a fault replaces the page the search
stops on, whether or not some frame is empty. -/
def clockRequest (s : State α n) (page : α) : State α n :=
  match lowest fun i => s.frames i = some page with
  | some i => { s with bits := Function.update s.bits i true, hits := s.hits + 1 }
  | none =>
      let s := advance n { s with faults := s.faults + 1 }
      { fill s s.hand page with hand := next s.hand }

/-- The page is in some frame. -/
def Resident (s : State α n) (page : α) : Prop := ∃ i, s.frames i = some page

instance (s : State α n) (page : α) : Decidable (Resident s page) :=
  inferInstanceAs (Decidable (∃ i, s.frames i = some page))

/-- The requests of a sequence that fault, in order. -/
def missed : State α n → List α → List α
  | _, [] => []
  | s, page :: pages =>
      if Resident s page then missed (clockRequest s page) pages
      else page :: missed (clockRequest s page) pages

/-- A hit is in the lowest frame that holds the page. -/
theorem clockRequest_hit {s : State α n} {page : α} (h : Resident s page) :
    ∃ i, s.frames i = some page ∧ clockRequest s page
      = { s with bits := Function.update s.bits i true, hits := s.hits + 1 } := by
  cases hlow : lowest fun i => decide (s.frames i = some page) with
  | some i =>
      have hi := lowest_some hlow
      simp only [decide_eq_true_eq] at hi
      exact ⟨i, hi, by simp only [clockRequest, hlow]⟩
  | none =>
      obtain ⟨i, hi⟩ := h
      have hnot := lowest_none.mp hlow i
      simp [hi] at hnot

theorem clockRequest_miss {s : State α n} {page : α} (h : ¬ Resident s page) :
    clockRequest s page =
      let s' := advance n { s with faults := s.faults + 1 }
      { fill s' s'.hand page with hand := next s'.hand } := by
  have hlow : lowest (fun i => decide (s.frames i = some page)) = none := by
    rw [lowest_none]
    intro i
    simp only [decide_eq_false_iff_not]
    exact fun hi => h ⟨i, hi⟩
  simp only [clockRequest, hlow]

theorem clockRequest_distinct {s : State α n} (h : Distinct s) (page : α) :
    Distinct (clockRequest s page) := by
  by_cases hres : Resident s page
  · obtain ⟨i, -, heq⟩ := clockRequest_hit hres
    rw [heq]
    exact h
  · rw [clockRequest_miss hres]
    have hframes := advance_frames n { s with faults := s.faults + 1 }
    apply Distinct.fill (s := advance n { s with faults := s.faults + 1 })
    · intro i j p hi hj
      rw [hframes] at hi hj
      exact h i j p hi hj
    · intro i hi
      rw [hframes] at hi
      exact hres ⟨i, hi⟩

/-! ## Where the hand is, seen from a frame -/

/-- The number of frames between `f` and `g`, going forward. -/
def ahead (f g : Fin n) : Nat :=
  if f.val < g.val then g.val - f.val - 1 else g.val + n - f.val - 1

theorem ahead_self (f : Fin n) : ahead f f = n - 1 := by
  simp [ahead]

theorem ahead_lt_last {f g : Fin n} (h : g ≠ f) : ahead f g < n - 1 := by
  have hne : g.val ≠ f.val := fun heq => h (Fin.ext heq)
  have hf := f.isLt
  have hg := g.isLt
  unfold ahead
  split <;> omega

theorem ahead_inj {f g h : Fin n} (heq : ahead f g = ahead f h) : g = h := by
  have hf := f.isLt
  have hg := g.isLt
  have hh := h.isLt
  apply Fin.ext
  unfold ahead at heq
  split at heq <;> split at heq <;> omega

theorem ahead_next_self (f : Fin n) : ahead f (next f) = 0 := by
  have hf := f.isLt
  unfold ahead
  rw [next_val]
  split <;> split <;> omega

theorem ahead_next {f g : Fin n} (h : g ≠ f) : ahead f (next g) = ahead f g + 1 := by
  have hne : g.val ≠ f.val := fun heq => h (Fin.ext heq)
  have hf := f.isLt
  have hg := g.isLt
  unfold ahead
  rw [next_val]
  split <;> split <;> split <;> omega

/-! ## The two rounds -/

/-- The frame holds a page of `W`. -/
def Used (W : Finset α) (s : State α n) (g : Fin n) : Prop := ∃ page ∈ W, s.frames g = some page

/-- **The invariant** of a page `p` loaded into frame `f`, where `W` are the
pages requested since: either its bit is still set, and of the frames the hand
has passed those with a set bit hold pages of `W`; or this is so of all
frames, and the frames the hand has passed in its present round hold pages of
`W`. -/
structure Kept (W : Finset α) (f : Fin n) (p : α) (s : State α n) : Prop where
  page : s.frames f = some p
  mem : p ∈ W
  rounds :
    (s.bits f = true ∧ ∀ g, ahead f g < ahead f s.hand → s.bits g = true → Used W s g) ∨
    ((∀ g, s.bits g = true → Used W s g) ∧ ∀ g, ahead f g < ahead f s.hand → Used W s g)

section Rounds

variable {W : Finset α} {f : Fin n} {p : α} {s : State α n}

omit [DecidableEq α] in
/-- The hand clears a bit and goes on. -/
theorem Kept.pass (h : Kept W f p s) (hbit : s.bits s.hand = true) :
    Kept W f p { s with bits := Function.update s.bits s.hand false, hand := next s.hand } := by
  have hused : ∀ g, Function.update s.bits s.hand false g = true → s.bits g = true := by
    intro g hg
    by_cases hgh : g = s.hand
    · simp [hgh] at hg
    · simpa [hgh] using hg
  have hself : Used W s f := ⟨p, h.mem, h.page⟩
  refine ⟨h.page, h.mem, ?_⟩
  by_cases hf : s.hand = f
  · -- the round is over: every frame has been passed
    right
    have hall : ∀ g, g ≠ f → ahead f g < ahead f s.hand := by
      intro g hg
      rw [hf, ahead_self]
      exact ahead_lt_last hg
    refine ⟨fun g hg => ?_, fun g hg => ?_⟩
    · by_cases hgf : g = f
      · exact hgf ▸ hself
      · rcases h.rounds with ⟨-, hpassed⟩ | ⟨hset, -⟩
        · exact hpassed g (hall g hgf) (hused g hg)
        · exact hset g (hused g hg)
    · dsimp only at hg
      rw [hf, ahead_next_self] at hg
      exact absurd hg (Nat.not_lt_zero _)
  · -- one more frame has been passed
    have hsplit : ∀ g, ahead f g < ahead f (next s.hand) →
        g = s.hand ∨ ahead f g < ahead f s.hand := by
      intro g hg
      rw [ahead_next hf] at hg
      rcases Nat.lt_succ_iff_lt_or_eq.mp hg with hlt | heq
      · exact .inr hlt
      · exact .inl (ahead_inj heq)
    rcases h.rounds with ⟨hbf, hpassed⟩ | ⟨hset, hpassed⟩
    · refine .inl ⟨?_, fun g hg hgb => ?_⟩
      · simp [Function.update_of_ne (Ne.symm hf), hbf]
      · rcases hsplit g hg with rfl | hlt
        · simp at hgb
        · exact hpassed g hlt (hused g hgb)
    · refine .inr ⟨fun g hg => hset g (hused g hg), fun g hg => ?_⟩
      rcases hsplit g hg with rfl | hlt
      · exact hset _ hbit
      · exact hpassed g hlt

omit [DecidableEq α] in
theorem Kept.advance (h : Kept W f p s) (k : Nat) : Kept W f p (advance k s) := by
  induction k generalizing s with
  | zero => exact h
  | succ k ih =>
      rw [SecondChance.advance]
      split
      · rename_i hbit
        exact ih (h.pass hbit)
      · exact h

/-- A hit is a request of the window. -/
theorem Kept.hit (h : Kept W f p s) {page : α} {i : Fin n} (hi : s.frames i = some page) :
    Kept (insert page W) f p
      { s with bits := Function.update s.bits i true, hits := s.hits + 1 } := by
  have hmono : ∀ g, Used W s g → Used (insert page W) s g := by
    rintro g ⟨x, hx, hg⟩
    exact ⟨x, Finset.mem_insert_of_mem hx, hg⟩
  have hset : ∀ g, (s.bits g = true → Used W s g) →
      Function.update s.bits i true g = true → Used (insert page W) s g := by
    intro g hg hbit
    by_cases hgi : g = i
    · exact ⟨page, Finset.mem_insert_self page W, hgi ▸ hi⟩
    · rw [Function.update_of_ne hgi] at hbit
      exact hmono g (hg hbit)
  refine ⟨h.page, Finset.mem_insert_of_mem h.mem, ?_⟩
  rcases h.rounds with ⟨hbf, hpassed⟩ | ⟨hall, hpassed⟩
  · refine .inl ⟨?_, fun g hg => hset g (hpassed g hg)⟩
    by_cases hfi : f = i
    · simp [hfi]
    · simp [Function.update_of_ne hfi, hbf]
  · exact .inr ⟨fun g => hset g (hall g), fun g hg => hmono g (hpassed g hg)⟩

/-- The search stops on another frame, which gets a page of the window. -/
theorem Kept.load (h : Kept W f p s) (hf : s.hand ≠ f) (page : α) :
    Kept (insert page W) f p { fill s s.hand page with hand := next s.hand } := by
  have hself : Used (insert page W) { fill s s.hand page with hand := next s.hand } s.hand :=
    ⟨page, Finset.mem_insert_self page W, by simp [fill]⟩
  have hother : ∀ g, g ≠ s.hand → Used W s g →
      Used (insert page W) { fill s s.hand page with hand := next s.hand } g := by
    rintro g hg ⟨x, hx, hgx⟩
    exact ⟨x, Finset.mem_insert_of_mem hx, by simp [fill, hg, hgx]⟩
  have hbit : ∀ g, g ≠ s.hand → (fill s s.hand page).bits g = s.bits g := by
    intro g hg
    simp [fill, hg]
  have hpassed : ∀ g, g ≠ s.hand → ahead f g < ahead f (next s.hand) →
      ahead f g < ahead f s.hand := by
    intro g hg hlt
    rw [ahead_next hf] at hlt
    have hne : ahead f g ≠ ahead f s.hand := fun heq => hg (ahead_inj heq)
    omega
  refine ⟨?_, Finset.mem_insert_of_mem h.mem, ?_⟩
  · simp [fill, Ne.symm hf, h.page]
  · rcases h.rounds with ⟨hbf, hround⟩ | ⟨hall, hround⟩
    · refine .inl ⟨?_, fun g hg hgb => ?_⟩
      · show (fill s s.hand page).bits f = true
        rw [hbit f (Ne.symm hf), hbf]
      · by_cases hgh : g = s.hand
        · exact hgh ▸ hself
        · exact hother g hgh (hround g (hpassed g hgh hg) (hbit g hgh ▸ hgb))
    · refine .inr ⟨fun g hgb => ?_, fun g hg => ?_⟩
      · by_cases hgh : g = s.hand
        · exact hgh ▸ hself
        · exact hother g hgh (hall g (hbit g hgh ▸ hgb))
      · by_cases hgh : g = s.hand
        · exact hgh ▸ hself
        · exact hother g hgh (hround g (hpassed g hgh hg))

omit [DecidableEq α] in
/-- If the search stops on the frame itself, all frames hold pages of `W`. -/
theorem Kept.all_used (h : Kept W f p s) (hf : s.hand = f) (hclear : s.bits s.hand = false)
    (g : Fin n) : Used W s g := by
  by_cases hg : g = f
  · exact ⟨p, h.mem, hg ▸ h.page⟩
  · rcases h.rounds with ⟨hbf, -⟩ | ⟨-, hround⟩
    · rw [hf, hbf] at hclear
      cases hclear
    · apply hround g
      rw [hf, ahead_self]
      exact ahead_lt_last hg

/-- Frames that all hold pages of `W` hold `n` of them. -/
theorem card_of_all_used (hs : Distinct s) (h : ∀ g, Used W s g) {page : α}
    (hmem : page ∈ W) (hmiss : ¬ Resident s page) : n < W.card := by
  choose held hheld hframe using h
  have hsub : Finset.univ.image held ⊂ W := by
    apply Finset.ssubset_iff_subset_ne.mpr
    constructor
    · intro x hx
      simp only [Finset.mem_image, Finset.mem_univ, true_and] at hx
      obtain ⟨g, rfl⟩ := hx
      exact hheld g
    · intro heq
      rw [← heq] at hmem
      simp only [Finset.mem_image, Finset.mem_univ, true_and] at hmem
      obtain ⟨g, hg⟩ := hmem
      exact hmiss ⟨g, hg ▸ hframe g⟩
  have hinj : Function.Injective held := by
    intro g g' heq
    exact hs g g' (held g) (hframe g) (heq ▸ hframe g')
  have hcard := Finset.card_lt_card hsub
  rwa [Finset.card_image_of_injective _ hinj, Finset.card_univ, Fintype.card_fin] at hcard

omit [DecidableEq α] in
/-- The search loads nothing. -/
theorem advance_resident {page : α} (hmiss : ¬ Resident s page) (k : Nat) :
    ¬ Resident (advance k { s with faults := s.faults + 1 }) page := by
  rintro ⟨i, hi⟩
  rw [advance_frames] at hi
  exact hmiss ⟨i, hi⟩

/-- **One request** with at most `n` pages in the window keeps the page. -/
theorem Kept.clockRequest (h : Kept W f p s) (hs : Distinct s) {page : α}
    (hcard : (insert page W).card ≤ n) : Kept (insert page W) f p (clockRequest s page) := by
  by_cases hres : Resident s page
  · obtain ⟨i, hi, heq⟩ := clockRequest_hit hres
    rw [heq]
    exact h.hit hi
  · have hstart : Kept W f p { s with faults := s.faults + 1 } := ⟨h.page, h.mem, h.rounds⟩
    have hstop := hstart.advance n
    have hclear := advance_clear { s with faults := s.faults + 1 }
    have hmiss := advance_resident hres n
    have hdistinct : Distinct (SecondChance.advance n { s with faults := s.faults + 1 }) := by
      intro i j q hi hj
      rw [advance_frames] at hi hj
      exact hs i j q hi hj
    rw [clockRequest_miss hres]
    apply hstop.load
    intro hf
    -- otherwise the window has a page more than there are frames
    have hused := hstop.all_used hf hclear
    have hins : ∀ g, Used (insert page W)
        (SecondChance.advance n { s with faults := s.faults + 1 }) g := by
      intro g
      obtain ⟨x, hx, hg⟩ := hused g
      exact ⟨x, Finset.mem_insert_of_mem hx, hg⟩
    have hlt := card_of_all_used hdistinct hins (Finset.mem_insert_self page W) hmiss
    omega

/-- A page that has just been loaded. -/
theorem Kept.start {page : α} (hmiss : ¬ Resident s page) :
    ∃ f, Kept {page} f page (SecondChance.clockRequest s page) := by
  rw [clockRequest_miss hmiss]
  refine ⟨(SecondChance.advance n { s with faults := s.faults + 1 }).hand, ?_, by simp, ?_⟩
  · simp [fill]
  · refine .inl ⟨by simp [fill], fun g hg => ?_⟩
    dsimp only at hg
    rw [ahead_next_self] at hg
    exact absurd hg (Nat.not_lt_zero _)

/-- A page that is kept does not fault again. -/
theorem Kept.not_missed (h : Kept W f p s) (hs : Distinct s) {pages : List α}
    (hcard : (W ∪ pages.toFinset).card ≤ n) : p ∉ missed s pages := by
  induction pages generalizing s W with
  | nil => simp [missed]
  | cons page pages ih =>
      have hunion : W ∪ (page :: pages).toFinset = insert page W ∪ pages.toFinset := by
        rw [List.toFinset_cons, Finset.union_insert, Finset.insert_union]
      rw [hunion] at hcard
      have hins : (insert page W).card ≤ n :=
        (Finset.card_le_card Finset.subset_union_left).trans hcard
      have hrest := ih (h.clockRequest hs hins) (clockRequest_distinct hs page) hcard
      rw [missed]
      split
      · exact hrest
      · rename_i hmiss
        intro hmem
        rcases List.mem_cons.mp hmem with rfl | hmem
        · exact hmiss ⟨f, h.page⟩
        · exact hrest hmem

end Rounds

/-- **In a window with at most `n` pages no page faults twice**, whatever is in
the frames, the bits and the hand when it begins. -/
theorem missed_nodup {s : State α n} (hs : Distinct s) {pages : List α}
    (hcard : pages.toFinset.card ≤ n) : (missed s pages).Nodup := by
  induction pages generalizing s with
  | nil => simp [missed]
  | cons page pages ih =>
      have hrest := ih (clockRequest_distinct hs page)
        ((Finset.card_le_card (by
          rw [List.toFinset_cons]
          exact Finset.subset_insert _ _)).trans hcard)
      rw [missed]
      split
      · exact hrest
      · rename_i hmiss
        obtain ⟨f, hkept⟩ := Kept.start hmiss
        refine List.nodup_cons.mpr
          ⟨hkept.not_missed (clockRequest_distinct hs page) ?_, hrest⟩
        rwa [List.toFinset_cons, Finset.insert_eq] at hcard

/-- Only requested pages fault. -/
theorem missed_subset (s : State α n) (pages : List α) : missed s pages ⊆ pages := by
  induction pages generalizing s with
  | nil => simp [missed]
  | cons page pages ih =>
      rw [missed]
      split
      · exact List.subset_cons_of_subset _ (ih _)
      · exact List.cons_subset_cons _ (ih _)

/-- So the window has at most `n` faults. -/
theorem length_missed_le {s : State α n} (hs : Distinct s) {pages : List α}
    (hcard : pages.toFinset.card ≤ n) : (missed s pages).length ≤ n := by
  rw [← List.toFinset_card_of_nodup (missed_nodup hs hcard)]
  refine (Finset.card_le_card ?_).trans hcard
  intro page hpage
  rw [List.mem_toFinset] at hpage ⊢
  exact missed_subset s pages hpage

end Lib.SecondChance
