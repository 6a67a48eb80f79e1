import OsInParts.Scheduling.Progress

/-!
# Loops — the main loops of `sjf` and `srtf`

One turn of either loop waits for a unit or executes the chosen process, and
either way the clock moves on; since it never passes `INT_MAX` the loops
return. `sjf` executes a whole burst, `srtf` one unit of a shortest
remaining time.
-/

namespace OsInParts.Scheduling

open Lib.Loop Lib.Schedule

variable {n : Nat} {p : Fin n → Process} {rem : Fin n → ℕ} {t : ℕ}

/-- A loop whose clock moves on with every turn returns. -/
theorem returns_of_clock {σ : Type*} {c : σ → Bool} {body : σ → Option σ}
    (clock : σ → Int) (I : σ → Prop)
    (hbody : ∀ s, I s → c s = true →
      ∃ s', body s = some s' ∧ I s' ∧ clock s < clock s' ∧ clock s' ≤ intMax)
    {s : σ} (hI : I s) : ∃ s', Returns (whileBody c body) s s' ∧ I s' ∧ c s' = false :=
  while_returns I (fun s => (intMax - clock s).toNat) (fun s hs hc => by
    obtain ⟨s', hb, hI', hlt, hle⟩ := hbody s hs hc
    exact ⟨s', hb, hI', by omega⟩) hI

/-! ## `sjf` -/

/-- No process is half finished. -/
def SjfInv (p : Fin n → Process) (s : Cpu n) : Prop :=
  ∃ t rem, Progress p rem t s ∧ ∀ i, rem i ≠ 0 → rem i = (jobs p).work i

/-- A process that has arrived is executed to its end. -/
theorem Progress.runBurst (hv : Valid p) (hfit : TimesFit p) {s : Cpu n}
    (h : Progress p rem t s) {i : Fin n} (hi : (jobs p).release i ≤ t) (hrem : rem i ≠ 0)
    (hwhole : rem i = (jobs p).work i) :
    ∃ s', s.runBurst i = some s' ∧ s'.currentTime ≤ intMax ∧
      Progress p (Function.update rem i 0) (t + rem i) s' := by
  have hset := h.setProcess i { s.p i with startTime := s.currentTime } rfl rfl rfl
  have hburst : ((s.setProcess i { s.p i with startTime := s.currentTime }).p i).burstTime
      = (rem i : Int) := by
    rw [hset.burst i, ← hv.work i, hwhole]
  have hpos : 0 < rem i := Nat.pos_of_ne_zero hrem
  obtain ⟨s', hs'⟩ := hset.exists_execute hv hfit hi hpos le_rfl
  obtain ⟨-, -, hle, -, hlast⟩ := hset.execute hi hpos le_rfl hs'
  rw [← hburst] at hs'
  exact ⟨s'.complete i, congrArg (Option.map fun c : Cpu n => c.complete i) hs', hle, hlast rfl⟩

theorem sjf_body (hv : Valid p) (hfit : TimesFit p) (hmax : ∀ i, (p i).burstTime < intMax)
    {s : Cpu n} (hI : SjfInv p s) (hopen : s.completed ≠ n) :
    ∃ s', sjfBody s = some s' ∧ SjfInv p s' ∧ s.currentTime < s'.currentTime ∧
      s'.currentTime ≤ intMax := by
  obtain ⟨t, rem, h, hwhole⟩ := hI
  unfold sjfBody
  rcases Candidates.scan_spec (c := ⟨s.p, fun i => (s.p i).burstTime, s.isCompleted,
    s.currentTime⟩) (.of_lt fun i _ => (h.burst i).trans_lt (hmax i)) with
    ⟨hscan, hnone⟩ | ⟨i, hscan, hel, -⟩
  · rw [hscan]
    obtain ⟨s', hs', -, -, hle, h'⟩ := h.tick hv hfit hopen fun i hi => by
      by_contra hlate
      exact hnone i ((h.eligible_iff hv i).mpr ⟨not_lt.mp hlate, hi⟩)
    exact ⟨s', hs', ⟨t + 1, rem, h', hwhole⟩, by rw [h.time, h'.time]; omega, hle⟩
  · rw [hscan]
    obtain ⟨hi, hrem⟩ := (h.eligible_iff hv i).mp hel
    obtain ⟨s', hs', hle, h'⟩ := h.runBurst hv hfit hi hrem (hwhole i hrem)
    refine ⟨s', hs', ⟨_, _, h', fun j hj => ?_⟩, by rw [h.time, h'.time]; omega, hle⟩
    by_cases hji : j = i
    · subst hji
      simp at hj
    · rw [Function.update_of_ne hji] at hj ⊢
      exact hwhole j hj

/-- **`sjf` returns** with every process completed. -/
theorem sjf_returns (hv : Valid p) (hfit : TimesFit p) (hmax : ∀ i, (p i).burstTime < intMax) :
    ∃ s t rem, Returns sjfLoop (Cpu.initial p) s ∧ Progress p rem t s ∧ s.completed = n := by
  obtain ⟨s, hs, ⟨t, rem, h, -⟩, hdone⟩ := returns_of_clock (c := fun s => s.completed != n)
    (fun s : Cpu n => s.currentTime) (SjfInv p)
    (fun s hI hc => sjf_body hv hfit hmax hI (by simpa using hc))
    ⟨0, (jobs p).work, Progress.start hv, fun _ _ => rfl⟩
  exact ⟨s, t, rem, hs, h, by simpa using hdone⟩

/-! ## `srtf` -/

/-- `burst_remaining` is what is left. -/
structure SrtfInv (p : Fin n → Process) (rem : Fin n → ℕ) (t : ℕ) (s : Srtf n) : Prop where
  progress : Progress p rem t s.toCpu
  burstRemaining : ∀ i, s.burstRemaining i = rem i

theorem SrtfInv.start (hv : Valid p) : SrtfInv p (jobs p).work 0 (Srtf.initial p) :=
  ⟨Progress.start hv, fun i => (hv.work i).symm⟩

/-- A turn leaves the completed processes and their times alone, and a process
that it completes is completed at the time it ends. -/
structure Keeps (s s' : Cpu n) : Prop where
  kept : ∀ i, s.isCompleted i = true →
    s'.isCompleted i = true ∧ (s'.p i).completionTime = (s.p i).completionTime
  stamped : ∀ i, s.isCompleted i = false → s'.isCompleted i = true →
    (s'.p i).completionTime = s'.currentTime

/-- Executing one unit of a process that has arrived and is not finished. -/
theorem SrtfInv.runUnit (hv : Valid p) (hfit : TimesFit p) {s : Srtf n}
    (h : SrtfInv p rem t s) {i : Fin n} (hi : (jobs p).release i ≤ t) (hrem : rem i ≠ 0) :
    ∃ s', s.runUnit i = some s' ∧ SrtfInv p (serve rem (some i)) (t + 1) s' ∧
      Keeps s.toCpu s'.toCpu ∧ s'.currentTime ≤ intMax := by
  obtain ⟨h, hburst⟩ := h
  have hpos : 0 < rem i := Nat.pos_of_ne_zero hrem
  have hleft := hburst i
  -- marking the start changes nothing that matters here
  obtain ⟨cpu, hcpu, hset, hflags, htimes⟩ : ∃ cpu : Cpu n,
      (if s.burstRemaining i = (s.p i).burstTime then
        s.setProcess i { s.p i with startTime := s.currentTime } else s.toCpu) = cpu ∧
      Progress p rem t cpu ∧ cpu.isCompleted = s.isCompleted ∧
      ∀ j, (cpu.p j).completionTime = (s.p j).completionTime := by
    refine ⟨_, rfl, ?_⟩
    split
    · refine ⟨h.setProcess i _ rfl rfl rfl, rfl, fun j => ?_⟩
      by_cases hj : j = i
      · subst hj
        simp only [Cpu.setProcess, Function.update_self]
      · simp only [Cpu.setProcess, Function.update_of_ne hj]
    · exact ⟨h, rfl, fun _ => rfl⟩
  have hnot : s.isCompleted i ≠ true := fun hc => hrem ((h.isCompleted i).mp hc)
  obtain ⟨c, hc⟩ := hset.exists_execute hv hfit hi (d := 1) Nat.one_pos hpos
  obtain ⟨hp, hfl, hle, hpart, hlast⟩ := hset.execute hi Nat.one_pos hpos hc
  have hrest : ∀ j, Function.update s.burstRemaining i (s.burstRemaining i - 1) j
      = (serve rem (some i) j : ℕ) := fun j => by
    by_cases hj : j = i
    · subst hj
      rw [Function.update_self, serve, Function.update_self, hleft]
      omega
    · rw [Function.update_of_ne hj, serve, Function.update_of_ne hj, hburst j]
  have hc' : cpu.execute i 1 = some c := hc
  unfold Srtf.runUnit
  dsimp only
  rw [hcpu, hc', Option.map_some]
  refine ⟨_, rfl, ?_⟩
  rw [Function.update_self, hleft]
  by_cases hone : rem i = 1
  · rw [if_pos (by rw [hone]; rfl)]
    have h' := hlast hone.symm
    have hserve : Function.update rem i 0 = serve rem (some i) := by
      rw [serve, hone]
    rw [hserve] at h'
    refine ⟨⟨h', by simpa only [hleft] using hrest⟩, ⟨fun j hj => ?_, fun j hj hj' => ?_⟩, hle⟩
    · have hji : j ≠ i := by
        rintro rfl
        exact hnot hj
      refine ⟨(complete_isCompleted _ i j).mpr (.inr (by rw [hfl, hflags]; exact hj)), ?_⟩
      show ((c.complete i).p j).completionTime = _
      rw [complete_of_ne _ i hji, hp, htimes]
    · rcases (complete_isCompleted _ i j).mp hj' with rfl | hsame
      · exact complete_completionTime _ j
      · rw [hfl, hflags, hj] at hsame
        cases hsame
  · rw [if_neg (by omega)]
    have hflags' : c.isCompleted = s.isCompleted := hfl.trans hflags
    refine ⟨⟨hpart (by omega), by simpa only [hleft] using hrest⟩,
      ⟨fun j hj => ⟨?_, ?_⟩, fun j hj hj' => ?_⟩, hle⟩
    · show c.isCompleted j = true
      rw [hflags']
      exact hj
    · show (c.p j).completionTime = _
      rw [hp, htimes]
    · have hsame : c.isCompleted j = true := hj'
      rw [hflags', hj] at hsame
      cases hsame

/-- **One turn of `srtf`** gives one unit of time to a process with the
shortest remaining time, or to none if nothing is outstanding. -/
theorem srtf_body (hv : Valid p) (hfit : TimesFit p) (hmax : ∀ i, (p i).burstTime < intMax)
    {s : Srtf n} (h : SrtfInv p rem t s) (hopen : s.completed ≠ n) :
    ∃ o s', srtfBody s = some s' ∧ Shortest ((jobs p).outstanding rem t) o ∧
      SrtfInv p (serve rem o) (t + 1) s' ∧ Keeps s.toCpu s'.toCpu ∧
      s'.currentTime ≤ intMax := by
  have hprog := h.progress
  have hkey : ∀ i, s.burstRemaining i < intMax := fun i => by
    have h1 := hprog.ledger.le i
    have h2 := hv.work i
    have h3 := hmax i
    rw [h.burstRemaining i]
    omega
  have hpos : ∀ i, 0 < (jobs p).outstanding rem t i ↔
      (jobs p).release i ≤ t ∧ rem i ≠ 0 := fun i => by
    unfold Jobs.outstanding
    split <;> simp [*, Nat.pos_iff_ne_zero]
  unfold srtfBody
  rcases Candidates.scan_spec (c := ⟨s.p, s.burstRemaining, s.isCompleted, s.currentTime⟩)
    (.of_lt fun i _ => hkey i) with ⟨hscan, hnone⟩ | ⟨i, hscan, hel, hbest⟩
  · rw [hscan]
    have hidle : ∀ i, ¬ ((jobs p).release i ≤ t ∧ rem i ≠ 0) := fun i hi =>
      hnone i ((hprog.eligible_iff hv i).mpr hi)
    obtain ⟨c, hc, hp, hfl, hle, h'⟩ := hprog.tick hv hfit hopen fun i hi => by
      by_contra hlate
      exact hidle i ⟨not_lt.mp hlate, hi⟩
    refine ⟨none, { s with toCpu := c }, by dsimp only; rw [hc]; rfl,
      fun i => Nat.eq_zero_of_not_pos (mt (hpos i).mp (hidle i)), ⟨h', h.burstRemaining⟩,
      ⟨fun i hi => ⟨by rw [hfl]; exact hi, by rw [hp]⟩, fun i hi hi' => ?_⟩, hle⟩
    have hsame : c.isCompleted i = true := hi'
    rw [hfl, hi] at hsame
    cases hsame
  · rw [hscan]
    have hel' := (hprog.eligible_iff hv i).mp hel
    obtain ⟨s', hs', h', hkeeps, hle⟩ := h.runUnit hv hfit hel'.1 hel'.2
    refine ⟨some i, s', hs', ⟨(hpos i).mpr hel', fun j hj => ?_⟩, h', hkeeps, hle⟩
    have hej := (hpos j).mp hj
    have hbefore := hbest j ((hprog.eligible_iff hv j).mpr hej)
    have hle : s.burstRemaining i ≤ s.burstRemaining j := by
      rcases hbefore with h | ⟨h, -⟩
      · exact h.le
      · exact h.le
    rw [h.burstRemaining i, h.burstRemaining j, Int.ofNat_le] at hle
    rw [Jobs.outstanding, if_pos hel'.1, Jobs.outstanding, if_pos hej.1]
    exact hle

/-- **`srtf` returns** with every process completed. What one turn keeps, given
the process it serves, holds at the end. -/
theorem srtf_returns (hv : Valid p) (hfit : TimesFit p) (hmax : ∀ i, (p i).burstTime < intMax)
    (I : (Fin n → ℕ) → ℕ → Srtf n → Prop) (hstart : I (jobs p).work 0 (Srtf.initial p))
    (hstep : ∀ rem t s o s', SrtfInv p rem t s → I rem t s →
      Shortest ((jobs p).outstanding rem t) o → SrtfInv p (serve rem o) (t + 1) s' →
      Keeps s.toCpu s'.toCpu → I (serve rem o) (t + 1) s') :
    ∃ s t rem, Returns srtfLoop (Srtf.initial p) s ∧ SrtfInv p rem t s ∧ s.completed = n ∧
      I rem t s := by
  obtain ⟨s, hs, ⟨t, rem, h, hI⟩, hdone⟩ := returns_of_clock (c := fun s => s.completed != n)
    (fun s : Srtf n => s.currentTime) (fun s => ∃ t rem, SrtfInv p rem t s ∧ I rem t s)
    (fun s ⟨t, rem, h, hI⟩ hc => by
      obtain ⟨o, s', hs', ho, h', hkeeps, hle⟩ :=
        srtf_body hv hfit hmax h (by simpa using hc)
      refine ⟨s', hs', ⟨_, _, h', hstep rem t s o s' h hI ho h' hkeeps⟩, ?_, hle⟩
      rw [h.progress.time, h'.progress.time]
      omega)
    ⟨0, (jobs p).work, SrtfInv.start hv, hstart⟩
  exact ⟨s, t, rem, hs, h, by simpa using hdone, hI⟩

end OsInParts.Scheduling
