import OsInParts.FileIO.MoveOutcome

/-!
# MoveSafety — what `move_directory` keeps when calls fail

The outcome of the whole call from that of its parts, by induction on the depth
of the tree: every file of `src` is afterwards at one of its two places, and a
file of `dest` stays as it is.

Where no call has to fail, an empty directory of `src` may still meet a regular
file of `dest`: `stat` finds something there, so no directory is made, and
`rmdir` removes the one that was to be moved.
-/

namespace OsInParts.FileIO

open Lib.Directories

variable {cwd : Path} {fails : Nat → Bool} {S D : Path} {s s' : System} {files : Files}
  {src dest : List UInt8}

/-! ## Moving a directory -/

/-- The way is clear for a directory exactly if it can be made and is clear for
every entry. -/
theorem clear_dir_iff (above : Option (Node (List UInt8))) (D : Path)
    (hdir : files.node S = some .dir) :
    Clear above (below files S) (below files D) ↔
      (files.node D = none → above = some .dir) ∧ ∀ e ∈ files.names S,
        Clear (some ((files.node D).getD .dir)) (below files (e :: S)) (below files (e :: D)) := by
  constructor
  · intro h
    refine ⟨h.makeable, fun e he => ⟨fun _ => ?_, fun r c hr => ?_, fun r c a hr => ?_⟩⟩
    · cases hnode : files.node D with
      | none => rfl
      | some x =>
          cases x with
          | dir => rfl
          | file c =>
              exact absurd (h.nothingBelowFile [] c e hnode) ((files.mem_names S e).mp he)
    · rw [below_entry] at hr ⊢
      exact h.noDirForFile _ c hr
    · rw [below_entry] at hr ⊢
      exact h.nothingBelowFile _ c a hr
  · rintro ⟨hmake, hentries⟩
    -- what is below `src` is below one of its entries
    have hentry : ∀ r e, below files S (r ++ [e]) ≠ none → e ∈ files.names S := fun r e hne => by
      rw [files.mem_names]
      intro hnone
      refine hne ?_
      rw [← below_entry]
      exact FileTree.below_none hnone r
    refine ⟨hmake, fun r c hr => ?_, fun r c a hr => ?_⟩
    · rcases List.eq_nil_or_concat r with rfl | ⟨r, e, rfl⟩
      · rw [below_nil, hdir] at hr
        cases hr
      · rw [List.concat_eq_append] at hr ⊢
        have he := hentry r e (by rw [hr]; simp)
        rw [← below_entry] at hr ⊢
        exact (hentries e he).noDirForFile r c hr
    · by_contra hne
      rcases List.eq_nil_or_concat r with rfl | ⟨r, e, rfl⟩
      · have hfile : files.node D = some (.file c) := hr
        have hmake' := (hentries a (hentry [] a hne)).makeable
          (FileTree.below_eq_none (r := [a]) (by rw [hfile]; simp) (List.cons_ne_nil _ _))
        rw [hfile] at hmake'
        cases hmake'
      · rw [List.concat_eq_append] at hr hne
        have he := hentry (a :: r) e hne
        rw [← List.cons_append, ← below_entry] at hne
        rw [← below_entry] at hr
        exact hne ((hentries e he).nothingBelowFile r c a hr)

/-- The path string of a relative path, to be put after that of its directory. -/
def render : Path → List UInt8
  | [] => []
  | a :: r => render r ++ slash :: a.val

theorem render_concat (r : Path) (e : Name) : render (r ++ [e]) = slash :: e.val ++ render r := by
  induction r with
  | nil => simp [render]
  | cons a r ih => rw [List.cons_append, render, ih, render, List.append_assoc]

/-- **What `move_directory` is for**: a directory where `src` leads, a destination
apart from it, no file at the same relative path of both, and strings that fit. -/
structure Movable (cwd : Path) (src dest : List UInt8) (S D : Path) (files : Files) : Prop where
  srcPath : target cwd src = some S
  destPath : target cwd dest = some D
  apart : Apart S D
  dir : files.node S = some .dir
  noFileTwice : ∀ r c c', below files S r = some (.file c) → below files D r ≠ some (.file c')
  short : ∀ r, r ≠ [] → below files S r ≠ none →
    (src ++ render r).length < pathSize ∧ (dest ++ render r).length < pathSize

/-- **No call has to fail**: the strings lead through directories that are there until
the end, `src` can be removed, the destination made, no file of `src` meets a directory
of `dest`, and nothing would go below a file of `dest`. -/
structure ClearWay (cwd : Path) (src dest : List UInt8) (S D : Path) (files : Files) : Prop where
  reached : Walks cwd files dest
  aside : Aside cwd src dest S files
  removable : endsInDots src = false
  makeable : Makeable files dest D
  noDirForFile : ∀ r c, below files S r = some (.file c) → below files D r ≠ some .dir
  nothingBelowFile : ∀ r c a, below files D r = some (.file c) → below files S (a :: r) = none

/-- Nothing is below `S` that the strings lead through. -/
theorem aside_of_outside (h : ∀ q ∈ through cwd src ++ through cwd dest, ∀ e, ¬ (e :: S) <:+ q) :
    Aside cwd src dest S files where
  src := fun q hq => h q (List.mem_append_left _ hq)
  dest := fun q hq => lastOn_iff.mpr fun e hsuffix =>
    absurd hsuffix (h q (List.mem_append_right _ hq) e)

theorem Aside.entries {files₁ : Files} (h : Aside cwd src dest S files)
    (hS : SameBelow S files files₁) :
    LastOf cwd dest S (files₁.names S) ∧ ∀ e, Aside cwd src dest (e :: S) files₁ := by
  refine ⟨fun e _ q hq hsuffix => ?_, fun e => ⟨fun q hq e' hsuffix => ?_, fun q hq => ?_⟩⟩
  · rw [show files₁.names S = files.names S from hS.names []]
    exact (lastOn_iff.mp (h.dest q hq) e hsuffix).1
  · exact h.src q hq e ((List.suffix_cons e' _).trans hsuffix)
  · exact ((h.dest q hq).entry e).congr (hS.entry e)

/-- No call has to fail if none has to for any of the entries, once the destination
has been made. -/
theorem clearWay_entries {files₁ : Files} (hdir : files.node S = some .dir)
    (hS : SameBelow S files files₁)
    (hD : ∀ e, below files₁ (e :: D) = below files (e :: D))
    (hmade : files₁.node D = some ((files.node D).getD .dir)) :
    ClearWay cwd src dest S D files ↔
      Walks cwd files dest ∧ (∀ q ∈ through cwd src, ∀ e, ¬ (e :: S) <:+ q) ∧
        endsInDots src = false ∧ Makeable files dest D ∧ LastOf cwd dest S (files₁.names S) ∧
          ∀ e ∈ files₁.names S, EntryClear cwd src dest S D files₁ e := by
  have hiff := clear_dir_iff (some .dir) D hdir
  have hnames : files₁.names S = files.names S := hS.names []
  constructor
  · intro h
    obtain ⟨hlast, haside⟩ := h.aside.entries hS
    refine ⟨h.reached, h.aside.src, h.removable, h.makeable, hlast, fun e he => ⟨haside e, ?_⟩⟩
    rw [hnames] at he
    rw [hmade, (hS.entry e).below_eq, hD]
    exact (hiff.mp ⟨fun _ => rfl, h.noDirForFile, h.nothingBelowFile⟩).2 e he
  · rintro ⟨hreached, hsrc, hremovable, hmakeable, hlast, hentries⟩
    rw [hnames] at hlast hentries
    have hclear := hiff.mpr ⟨fun _ => rfl, fun e he => by
      have hentry := (hentries e he).clear
      rwa [hmade, (hS.entry e).below_eq, hD] at hentry⟩
    refine ⟨hreached, ⟨hsrc, fun q hq => lastOn_iff.mpr fun e hsuffix => ?_⟩, hremovable,
      hmakeable, hclear.noDirForFile, hclear.nothingBelowFile⟩
    obtain ⟨r, rfl⟩ := hsuffix
    have he : e ∈ files.names S := by
      rw [files.mem_names]
      intro hnone
      have hwalk := hreached _ hq
      rw [FileTree.below_none hnone r] at hwalk
      cases hwalk
    refine ⟨hlast e he _ hq ⟨r, rfl⟩, ((hentries e he).aside.dest _ hq).congr ?_⟩
    exact ⟨fun r => ((hS.entry e).node r).symm, fun r => ((hS.entry e).names r).symm⟩

section Directory

variable {s₁ s₂ s₃ : System}

/-- Where `src` cannot be opened. -/
theorem MadeDest.outcome_of_failed {reached clear : Prop} (h : MadeDest cwd fails dest D s s₁)
    (hapart : Apart S D) (hdir : s.files.node S = some .dir) (hfiles : s₂.files = s₁.files)
    (hfailed : s₂.failed = true) (hnot : (∀ k, fails k = false) → ¬ reached) :
    Outcome fails reached clear S D s s₂ := by
  obtain ⟨hsrc, hdest⟩ := h.same hapart
  refine ⟨⟨fun q _ hq => ?_, fun q _ _ _ hq => ?_, fun r => ?_⟩, fun hf => ?_,
    fun hall hreached => absurd hreached (hnot hall)⟩
  · rw [hfiles]
    exact h.frame q fun heq => hq (by rw [heq])
  · rw [hfiles]
    exact h.order q hq
  · rw [hfiles, hsrc.below_eq]
    rcases List.eq_nil_or_concat r with rfl | ⟨r, e, rfl⟩
    · rw [below_nil, hdir]
      exact ⟨.inl rfl, h.made⟩
    · rw [List.concat_eq_append, ← below_entry, ← below_entry, ← below_entry, hdest e]
      exact Fate.refl _ _
  · rw [hfailed] at hf
    cases hf

section Parts

variable (hapart : Apart S D) (hdir : s.files.node S = some .dir)
  (hmake : MadeDest cwd fails dest D s s₁)
  (heach : Each cwd fails src dest S D (s₁.files.names S) s₁ s₂)
  (hremove : RemovedSrc cwd fails src S s₂ s₃)

include hapart hmake

theorem dir_entry (e : Name) : below s₁.files (e :: S) = below s.files (e :: S) :=
  ((hmake.same hapart).1.entry e).below_eq

theorem dir_names : s₁.files.names S = s.files.names S := (hmake.same hapart).1.names []

include heach hremove

theorem dir_absent {e : Name} (he : e ∉ s.files.names S) (r : Path) :
    below s.files (e :: S) r = none ∧ below s₃.files (e :: S) r = none ∧
      below s₃.files (e :: D) r = below s.files (e :: D) r := by
  have hnode : s.files.node (e :: S) = none := by
    by_contra hne
    exact he ((s.files.mem_names S e).mpr hne)
  have hnone : below s.files (e :: S) r = none := FileTree.below_none hnode r
  obtain ⟨hsrc₃, hdest₃⟩ := hremove.entry hapart e
  obtain ⟨hsrc₂, hdest₂⟩ := heach.other hapart (by rwa [dir_names hapart hmake])
  refine ⟨hnone, ?_, ?_⟩
  · rw [hsrc₃, hsrc₂, dir_entry hapart hmake, hnone]
  · rw [hdest₃, hdest₂, (hmake.same hapart).2]

/-- If no call has failed for the entries, nothing is left of them. -/
theorem dir_arrived (hf : s₂.failed = false) (e : Name) (r : Path) :
    Arrived (below s.files (e :: S) r) (below s.files (e :: D) r) (below s₃.files (e :: S) r)
      (below s₃.files (e :: D) r) := by
  by_cases he : e ∈ s.files.names S
  · have harrived := ((heach.success hf).2.2.2 e (by rwa [dir_names hapart hmake])).2 r
    obtain ⟨hsrc₃, hdest₃⟩ := hremove.entry hapart e
    rwa [dir_entry hapart hmake, (hmake.same hapart).2, ← hsrc₃, ← hdest₃] at harrived
  · obtain ⟨h1, h2, h3⟩ := dir_absent hapart hmake heach hremove he r
    rw [h1, h2, h3]
    exact ⟨rfl, rfl⟩

include hdir

theorem dir_moved : Moved S D s.files s₃.files := by
  have hout : ∀ {q}, ¬ S <:+ q → ¬ D <:+ q →
      ∀ e ∈ s₁.files.names S, ¬ (e :: S) <:+ q ∧ ¬ (e :: D) <:+ q := fun h1 h2 e _ =>
    ⟨fun h => h1 ((List.suffix_cons e S).trans h), fun h => h2 ((List.suffix_cons e D).trans h)⟩
  refine ⟨fun q h1 h2 => ?_, fun q h1 h2 h3 h4 => ?_, fun r => ?_⟩
  · have hS : q ≠ S := fun heq => h1 (by rw [heq])
    have hD : q ≠ D := fun heq => h2 (by rw [heq])
    rw [hremove.frame q hS, heach.frame q (hout h1 h2), hmake.frame q hD]
  · have hS : q ≠ S := fun heq => h1 (by rw [heq])
    have hD : q ≠ D := fun heq => h2 (by rw [heq])
    rw [hremove.order q h3, heach.order q (hout h1 h2) hS hD, hmake.order q h4]
  · rcases List.eq_nil_or_concat r with rfl | ⟨r, e, rfl⟩
    · rw [below_nil, hdir, hremove.below_dest hapart]
      refine ⟨hremove.removed, ?_⟩
      show s₂.files.node D = _ ∨ _ ∧ s₂.files.node D = _
      rw [(heach.self hapart).2]
      exact hmake.made
    · rw [List.concat_eq_append, ← below_entry, ← below_entry, ← below_entry, ← below_entry]
      by_cases he : e ∈ s.files.names S
      · have hfate := heach.fate e (by rwa [dir_names hapart hmake]) r
        obtain ⟨hsrc₃, hdest₃⟩ := hremove.entry hapart e
        rwa [dir_entry hapart hmake, (hmake.same hapart).2, ← hsrc₃, ← hdest₃] at hfate
      · obtain ⟨h1, h2, h3⟩ := dir_absent hapart hmake heach hremove he r
        rw [h1, h2, h3]
        exact ⟨rfl, rfl⟩

/-- If no call has failed, everything has arrived. -/
theorem dir_success (hf : s₃.failed = false) :
    s.failed = false ∧ ClearWay cwd src dest S D s.files ∧
      ∀ r, Arrived (below s.files S r) (below s.files D r) (below s₃.files S r)
        (below s₃.files D r) := by
  obtain ⟨hf₂, hwalks₂, hdots, hgone⟩ := hremove.success hf
  obtain ⟨hf₁, -, hlast, hall⟩ := heach.success hf₂
  obtain ⟨hf₀, ⟨hreached, hmakeable⟩, hmade⟩ := hmake.success hf₁
  obtain ⟨hS, hD⟩ := hmake.same hapart
  refine ⟨hf₀, (clearWay_entries hdir hS hD hmade).mpr ⟨hreached, fun q hq e => ?_, hdots,
    hmakeable, hlast, fun e he => (hall e he).1⟩, fun r => ?_⟩
  · -- what `src` leads through is there when `src` is removed
    rintro ⟨r, rfl⟩
    have hwalk := hwalks₂ _ hq
    have hleft := (dir_arrived hapart hmake heach hremove hf₂ e r).1
    rw [(hremove.entry hapart e).1] at hleft
    rw [show s₂.files.node (r ++ e :: S) = none from hleft] at hwalk
    cases hwalk
  · rcases List.eq_nil_or_concat r with rfl | ⟨r, e, rfl⟩
    · refine ⟨hgone, ?_⟩
      rw [below_nil, hdir, hremove.below_dest hapart]
      exact (heach.self hapart).2.trans hmade
    · rw [List.concat_eq_append, ← below_entry, ← below_entry, ← below_entry, ← below_entry]
      exact dir_arrived hapart hmake heach hremove hf₂ e r

/-- With the entries gone, `rmdir` has nothing to refuse. -/
theorem dir_smooth (hall : ∀ k, fails k = false) (hwalks : Walks cwd s.files src)
    (hclear : ClearWay cwd src dest S D s.files) (hf : s.failed = false) : s₃.failed = false := by
  have hf₁ := hmake.smooth hall hclear.reached hclear.makeable hf
  obtain ⟨hS, hD⟩ := hmake.same hapart
  obtain ⟨-, hsrc, -, -, hlast, hentries⟩ :=
    (clearWay_entries hdir hS hD (hmake.success hf₁).2.2).mp hclear
  have hwalks₁ : Walks cwd s₁.files src := fun q hq => hmake.dir_stays (hwalks q hq)
  have hf₂ := heach.smooth hall hwalks₁ hsrc
    (fun _ q hq => hmake.dir_stays (hclear.reached q hq)) hlast hentries hf₁
  refine hremove.smooth hall (fun q hq => heach.dir_stays (fun e _ => hsrc q hq e) (hwalks₁ q hq))
    hclear.removable (FileTree.names_eq_nil_iff.mpr fun e => ?_) hf₂
  have hleft := (dir_arrived hapart hmake heach hremove hf₂ e []).1
  rwa [(hremove.entry hapart e).1] at hleft

/-- **The whole call** from its parts. -/
theorem dir_outcome : Outcome fails (Walks cwd s.files src) (ClearWay cwd src dest S D s.files)
    S D s s₃ where
  moved := dir_moved hapart hdir hmake heach hremove
  success := dir_success hapart hdir hmake heach hremove
  smooth := dir_smooth hapart hdir hmake heach hremove

end Parts

end Directory

theorem Outcome.of_iff {reached reached' clear clear' : Prop}
    (h : Outcome fails reached clear S D s s') (hreached : reached ↔ reached')
    (hclear : clear ↔ clear') : Outcome fails reached' clear' S D s s' :=
  propext hreached ▸ propext hclear ▸ h

/-- Below an entry that is a directory everything is as it has to be. -/
theorem Movable.entry (h : Movable cwd src dest S D files) {e : Name}
    (hdir : files.node (e :: S) = some .dir) :
    Movable cwd (src ++ slash :: e.val) (dest ++ slash :: e.val) (e :: S) (e :: D) files where
  srcPath := Leads.entry e (.inl h.srcPath)
  destPath := Leads.entry e (.inl h.destPath)
  apart := h.apart.entry e e
  dir := hdir
  noFileTwice := fun r c c' hr => by
    rw [below_entry] at hr ⊢
    exact h.noFileTwice _ c c' hr
  short := fun r hr hne => by
    rw [below_entry] at hne
    have hshort := h.short (r ++ [e]) (by simp) hne
    rw [render_concat] at hshort
    simpa only [List.append_assoc] using hshort

/-- Only what is below the two paths matters. -/
theorem Movable.congr {files' : Files}
    (h : Movable cwd src dest S D files) (hS : below files' S = below files S)
    (hD : below files' D = below files D) : Movable cwd src dest S D files' where
  srcPath := h.srcPath
  destPath := h.destPath
  apart := h.apart
  dir := (congrFun hS []).trans h.dir
  noFileTwice := by rw [hS, hD]; exact h.noFileTwice
  short := by rw [hS]; exact h.short

/-- With the strings of an entry, the way is clear if it is for the entry itself. -/
theorem clearWay_iff {e : Name} (hsrc : target cwd src = some S) (hdest : target cwd dest = some D)
    (hapart : Apart S D) :
    ClearWay cwd (src ++ slash :: e.val) (dest ++ slash :: e.val) (e :: S) (e :: D) files ↔
      Walks cwd files dest ∧ EntryClear cwd src dest S D files e := by
  have hwalks := Leads.walks_entry e files (.inl hdest)
  constructor
  · intro h
    exact ⟨(hwalks.mp h.reached).1, (aside_entry hsrc hdest hapart).mp h.aside,
      fun hnone => (h.makeable.above hnone).2, h.noDirForFile, h.nothingBelowFile⟩
  · rintro ⟨hreached, haside, hclear⟩
    have hD : files.node D = some .dir := by
      by_cases hnone : files.node (e :: D) = none
      · exact hclear.makeable hnone
      · exact files.parent D e hnone
    have habove := fun hnone => And.intro (endsInDots_entry (s := dest) e) (hclear.makeable hnone)
    exact ⟨hwalks.mpr ⟨hreached, hD⟩, (aside_entry hsrc hdest hapart).mpr haside,
      endsInDots_entry e, ⟨habove, fun _ _ => asksDir_entry e⟩, hclear.noDirForFile,
      hclear.nothingBelowFile⟩

theorem moveEntry_dots {recurse : List UInt8 → List UInt8 → System → Option System}
    {entry : Dirent} (h : entry.name = dot ∨ entry.name = dotDot) :
    moveEntry cwd fails recurse src dest s entry = some s :=
  if_pos h

/-- **One turn of the loop**, given the outcome of the recursive call. -/
theorem moveEntry_outcome {recurse : List UInt8 → List UInt8 → System → Option System}
    {e : Name} {isDir : Bool} (h : Movable cwd src dest S D files)
    (hnode : files.node (e :: S) ≠ none) (hisDir : isDir = decide (files.node (e :: S) = some .dir))
    (hS : below s.files (e :: S) = below files (e :: S))
    (hD : below s.files (e :: D) = below files (e :: D))
    (hrecurse : files.node (e :: S) = some .dir →
      ∃ s', recurse (src ++ slash :: e.val) (dest ++ slash :: e.val) s = some s' ∧
        Outcome fails (Walks cwd s.files (src ++ slash :: e.val))
          (ClearWay cwd (src ++ slash :: e.val) (dest ++ slash :: e.val) (e :: S) (e :: D) s.files)
          (e :: S) (e :: D) s s') :
    ∃ s', moveEntry cwd fails recurse src dest s { name := e.val, isDir := isDir } = some s' ∧
      Outcome fails (Walks cwd s.files src)
        (Walks cwd s.files dest ∧ EntryClear cwd src dest S D s.files e)
        (e :: S) (e :: D) s s' := by
  obtain ⟨hsrcShort, hdestShort⟩ := h.short [e] (List.cons_ne_nil e []) hnode
  have hsrcPath : entryPath src e.val = src ++ slash :: e.val :=
    List.take_of_length_le (Nat.le_sub_one_of_lt hsrcShort)
  have hdestPath : entryPath dest e.val = dest ++ slash :: e.val :=
    List.take_of_length_le (Nat.le_sub_one_of_lt hdestShort)
  have hdots : ¬ (e.val = dot ∨ e.val = dotDot) :=
    not_or.mpr ⟨e.property.2.2.2.1, e.property.2.2.2.2⟩
  have hsame : s.files.node (e :: S) = files.node (e :: S) := congrFun hS []
  unfold moveEntry
  rw [if_neg hdots]
  simp only [hsrcPath, hdestPath, hisDir, decide_eq_true_eq]
  by_cases hdir : files.node (e :: S) = some .dir
  · rw [if_pos hdir]
    obtain ⟨s', hs', hout⟩ := hrecurse hdir
    have hparent : s.files.node S = some .dir :=
      s.files.parent S e (by rw [hsame, hdir]; simp)
    exact ⟨s', hs', hout.of_iff
      ((Leads.walks_entry e _ (.inl h.srcPath)).trans (and_iff_left hparent))
      (clearWay_iff h.srcPath h.destPath h.apart)⟩
  · rw [if_neg hdir]
    obtain ⟨c, hc⟩ : ∃ c, files.node (e :: S) = some (.file c) := by
      by_contra hno
      exact hnode (eq_none_of_ne hdir (not_exists.mp hno))
    refine ⟨_, rfl, moveFile_outcome h.srcPath h.destPath (hsame.trans hc) h.apart
      fun c' hc' => ?_⟩
    exact h.noFileTwice [e] c c' hc ((congrFun hD []).symm.trans hc')

/-- **`move_directory`** on a tree that is less deep than its recursion may be. -/
theorem moveDirectory_outcome (fails : Nat → Bool) {depth : ℕ}
    (h : Movable cwd src dest S D s.files)
    (hdepth : ∀ r, below s.files S r ≠ none → r.length < depth) :
    ∃ s', moveDirectory cwd fails depth src dest s = some s' ∧
      Outcome fails (Walks cwd s.files src) (ClearWay cwd src dest S D s.files) S D s s' := by
  induction depth generalizing src dest S D s with
  | zero =>
      have hnot := hdepth [] (by rw [below_nil, h.dir]; simp)
      exact absurd hnot (Nat.not_lt_zero _)
  | succ depth ih =>
      have hmake := makeDest_spec fails (s := s) h.destPath h.apart.ne_nil
      unfold moveDirectory
      generalize makeDest cwd fails dest s = s₁ at hmake
      obtain ⟨hsrc₁, hdest₁⟩ := hmake.same h.apart
      have hdir₁ : s₁.files.node S = some .dir := (hsrc₁.node []).trans h.dir
      rcases call_cases fails s₁
        ((opendir cwd s₁.files src).map fun entries => (s₁.files, entries)) with
        ⟨files', entries, hr, hcall⟩ | ⟨hr, hcall⟩
      · obtain ⟨entries', hopen, heq⟩ := Option.map_eq_some_iff.mp hr
        obtain ⟨rfl, rfl⟩ := Prod.mk.inj heq
        rw [opendir_eq h.srcPath (opendir_some h.srcPath hopen).1 hdir₁] at hopen
        cases hopen
        simp only [hcall]
        generalize hs₂ : ({ s₁ with files := s₁.files, calls := s₁.calls + 1 } : System) = s₂
        have hfiles : s₂.files = s₁.files := by rw [← hs₂]
        have hmake₂ : MadeDest cwd fails dest D s s₂ := hmake.congr hfiles (by rw [← hs₂])
        obtain ⟨s₃, hfold, heach⟩ : ∃ s₃, (s₁.files.names S).foldlM (fun s e =>
              moveEntry cwd fails (moveDirectory cwd fails depth) src dest s
                { name := e.val, isDir := decide (s₁.files.node (e :: S) = some .dir) }) s₂
              = some s₃ ∧
            Each cwd fails src dest S D (s₁.files.names S) s₂ s₃ := by
          refine each_fold _ s h.apart (s₁.files.nodup S) (fun e he t hS hD => ?_) fun e _ => by
            rw [hfiles]
            exact ⟨(hsrc₁.entry e).below_eq, hdest₁ e⟩
          have hnode : s₁.files.node (e :: S) = s.files.node (e :: S) := (hsrc₁.entry e).node []
          refine moveEntry_outcome h ?_ (by rw [hnode]) hS hD fun hdir => ?_
          · rw [← hnode]
            exact (s₁.files.mem_names S e).mp he
          · refine ih ((h.entry hdir).congr hS hD) fun r hr => ?_
            rw [hS, below_entry] at hr
            have hlength := hdepth _ hr
            rw [List.length_append, List.length_singleton] at hlength
            omega
        have hdir₃ : s₃.files.node S = some .dir := by
          rw [(heach.self h.apart).1, hfiles, hdir₁]
        refine ⟨s₃.run fails (rmdir cwd s₃.files src), ?_, dir_outcome h.apart h.dir hmake₂
          (by rw [hfiles]; exact heach) (rmdir_spec h.srcPath h.apart.symm.ne_nil hdir₃)⟩
        rw [List.foldlM_cons, moveEntry_dots (.inl rfl), Option.bind_eq_bind, Option.bind_some,
          List.foldlM_cons, moveEntry_dots (.inr rfl), Option.bind_eq_bind, Option.bind_some,
          List.foldlM_map, hfold, Option.map_some]
      · simp only [hcall]
        refine ⟨_, rfl, hmake.outcome_of_failed h.apart h.dir rfl rfl fun hall hwalks => ?_⟩
        have hnone := hr hall
        rw [opendir_eq h.srcPath (fun q hq => hmake.dir_stays (hwalks q hq)) hdir₁] at hnone
        cases hnone

/-! ## What is kept -/

/-- **Nothing is lost**: a file of `src` is still there or has arrived, no file of
`dest` has changed, and unless a call has failed all of `src` has arrived. -/
structure LosesNothing (S D : Path) (files : Files) (s' : System) : Prop where
  kept : ∀ r c, below files S r = some (.file c) →
    below s'.files S r = some (.file c) ∧ (∀ c', below s'.files D r ≠ some (.file c')) ∨
      below s'.files S r = none ∧ below s'.files D r = some (.file c)
  unchanged : ∀ r c, below files D r = some (.file c) → below s'.files D r = some (.file c)
  complete : s'.failed = false → s'.files.node S = none ∧
    ∀ r x, below files S r = some x → below s'.files D r = some x

/-- The call returns and loses nothing, whatever calls fail. -/
def AlwaysKeeps (cwd : Path) (src dest : List UInt8) (S D : Path) (files : Files) : Prop :=
  ∀ fails : Nat → Bool, ∃ bound, ∀ depth ≥ bound, ∃ s',
    moveDirectory cwd fails depth src dest { files := files, calls := 0, failed := false }
        = some s' ∧
      LosesNothing S D files s'

theorem Moved.kept {files' : Files} (h : Moved S D files files') {r : Path} {c : List UInt8}
    (hsrc : below files S r = some (.file c)) (hdest : ∀ c', below files D r ≠ some (.file c')) :
    below files' S r = some (.file c) ∧ (∀ c', below files' D r ≠ some (.file c')) ∨
      below files' S r = none ∧ below files' D r = some (.file c) := by
  have hfate := h.fate r
  rw [hsrc] at hfate
  rcases hfate with ⟨hsrc', hdest'⟩ | ⟨hsrc', -, hdest'⟩
  · exact .inl ⟨hsrc', by rwa [hdest']⟩
  · exact .inr ⟨hsrc', hdest'⟩

/-- A file moves only to where nothing was. -/
theorem Moved.unchanged {files' : Files} (h : Moved S D files files') {r : Path} {c : List UInt8}
    (hdest : below files D r = some (.file c)) : below files' D r = some (.file c) := by
  have hfate := h.fate r
  have hne : below files D r ≠ none := by simp [hdest]
  rcases hsrc : below files S r with _ | _ | c' <;> rw [hsrc] at hfate
  · exact hfate.2.trans hdest
  · rcases hfate.2 with heq | ⟨hnone, -⟩
    · exact heq.trans hdest
    · exact absurd hnone hne
  · rcases hfate with ⟨-, heq⟩ | ⟨-, hnone, -⟩
    · exact heq.trans hdest
    · exact absurd hnone hne

/-- What arrives is what was there, unless a directory finds a file. -/
theorem Arrived.eq {src dest src' dest' : Option (Node (List UInt8))} {x : Node (List UInt8)}
    (h : Arrived src dest src' dest') (hsrc : src = some x)
    (hdest : x = .dir → ∀ c, dest ≠ some (.file c)) : dest' = some x := by
  subst hsrc
  cases x with
  | file c => exact h.2
  | dir =>
      rw [h.2]
      rcases dest with _ | _ | c
      · rfl
      · rfl
      · exact absurd rfl (hdest rfl c)

/-- If nothing stands in the way, a directory that finds a file is lost. -/
theorem not_alwaysKeeps {r : Path} {c : List UInt8} (h : Movable cwd src dest S D files)
    (hthere : resolve cwd files src = some S)
    (hfinite : ∃ depth, ∀ r, below files S r ≠ none → r.length < depth)
    (hclear : ClearWay cwd src dest S D files) (hsrc : below files S r = some .dir)
    (hdest : below files D r = some (.file c)) : ¬ AlwaysKeeps cwd src dest S D files := by
  intro hkeeps
  obtain ⟨depth, hdepth⟩ := hfinite
  obtain ⟨bound, hbound⟩ := hkeeps fun _ => false
  obtain ⟨s', hs', hlost⟩ := hbound (max bound depth) (le_max_left _ _)
  obtain ⟨s'', hs'', hout⟩ := moveDirectory_outcome (fun _ => false)
    (s := { files := files, calls := 0, failed := false }) h fun r hr =>
      (hdepth r hr).trans_le (le_max_right bound depth)
  obtain rfl : s' = s'' := Option.some.inj (hs'.symm.trans hs'')
  have hwalks : Walks cwd files src := (resolve_eq_some_iff.mp hthere).2
  have hfailed : s'.failed = false := hout.smooth (fun _ => rfl) hwalks hclear rfl
  have harrived := ((hout.success hfailed).2.2 r).2
  rw [hsrc, hdest, (hlost.complete hfailed).2 r .dir hsrc] at harrived
  cases harrived

/-- **`move_directory` loses nothing**, whatever calls fail, exactly if no directory
of `src` finds a regular file at its place in `dest`, or something else stands in
the way and a call fails in any case. -/
theorem moveDirectory_loses_nothing_iff (h : Movable cwd src dest S D files)
    (hthere : resolve cwd files src = some S)
    (hfinite : ∃ depth, ∀ r, below files S r ≠ none → r.length < depth) :
    AlwaysKeeps cwd src dest S D files ↔
      (∀ r c, below files S r = some .dir → below files D r ≠ some (.file c)) ∨
        ¬ ClearWay cwd src dest S D files := by
  constructor
  · intro hkeeps
    by_contra hnot
    obtain ⟨hmeet, hclear⟩ := not_or.mp hnot
    refine hmeet fun r c hsrc hdest => ?_
    exact not_alwaysKeeps h hthere hfinite (not_not.mp hclear) hsrc hdest hkeeps
  · intro hcond fails
    obtain ⟨bound, hbound⟩ := hfinite
    refine ⟨bound, fun depth hle => ?_⟩
    obtain ⟨s', hs', hout⟩ := moveDirectory_outcome fails
      (s := { files := files, calls := 0, failed := false }) h fun r hr =>
        (hbound r hr).trans_le hle
    refine ⟨s', hs', fun r c hsrc => hout.moved.kept hsrc (h.noFileTwice r c · hsrc),
      fun r c hdest => hout.moved.unchanged hdest, fun hfailed => ?_⟩
    obtain ⟨-, hclear, harrived⟩ := hout.success hfailed
    have hnomeet := hcond.resolve_right (not_not.mpr hclear)
    exact ⟨(harrived []).1, fun r x hsrc => (harrived r).eq hsrc fun hdir c =>
      hnomeet r c (hdir ▸ hsrc)⟩

/-! ## A directory that finds a file -/

def srcName : Name := ⟨[115], by decide⟩

def destName : Name := ⟨[100], by decide⟩

def entryName : Name := ⟨[101], by decide⟩

def freeName : Name := ⟨[102], by decide⟩

/-- `/s` with an empty directory `e`, and `/d` with a regular file `e`. -/
def emptyAndFile : Files :=
  let onlySrc : Files := FileTree.bare.put [] srcName .dir (by decide) (by decide)
  let withEntry : Files := onlySrc.put [srcName] entryName .dir (by decide) (by decide)
  let withDest : Files := withEntry.put [] destName .dir (by decide) (by decide)
  withDest.put [destName] entryName (.file [1]) (by decide) (by decide)

theorem below_srcName (r : Path) :
    below emptyAndFile [srcName] r = if r = [] ∨ r = [entryName] then some .dir else none := by
  match r with
  | [] => rfl
  | [a] =>
      by_cases h : a = entryName
      · subst h
        rfl
      · simp [below, emptyAndFile, FileTree.put, FileTree.bare, Function.update_apply, srcName,
          destName, entryName]
  | _ :: _ :: _ =>
      simp [below, emptyAndFile, FileTree.put, FileTree.bare, Function.update_apply]

theorem below_srcName_ne_none {r : Path} (h : below emptyAndFile [srcName] r ≠ none) :
    r = [] ∨ r = [entryName] := by
  rw [below_srcName] at h
  by_contra hne
  exact h (if_neg hne)

theorem emptyAndFile_movable : Movable [] [115] [100] [srcName] [destName] emptyAndFile where
  srcPath := by decide
  destPath := by decide
  apart := ⟨by decide, by decide⟩
  dir := rfl
  noFileTwice := fun r c c' hc => by
    rw [below_srcName] at hc
    split at hc <;> cases hc
  short := fun r hr hne => by
    obtain rfl := (below_srcName_ne_none hne).resolve_left hr
    exact ⟨by decide, by decide⟩

theorem emptyAndFile_finite :
    ∃ depth, ∀ r, below emptyAndFile [srcName] r ≠ none → r.length < depth := by
  refine ⟨2, fun r hr => ?_⟩
  rcases below_srcName_ne_none hr with rfl | rfl <;> decide

/-- In `/d` the empty directory finds the file: no call fails, and it is gone. -/
theorem moveDirectory_loses_directory :
    ¬ ∀ (cwd S D : Path) (src dest : List UInt8) (files : Files),
      Movable cwd src dest S D files → resolve cwd files src = some S →
        (∃ depth, ∀ r, below files S r ≠ none → r.length < depth) →
          AlwaysKeeps cwd src dest S D files := by
  intro hkeeps
  have hclear : ClearWay [] [115] [100] [srcName] [destName] emptyAndFile := by
    refine ⟨by decide, ⟨fun q hq e hsuffix => ?_, fun q hq r a r' heq => ?_⟩, by decide,
      ⟨fun hnone => ?_, fun c hc => ?_⟩, fun r c hc => ?_, fun r c a hc => ?_⟩
    · rw [List.mem_singleton.mp hq] at hsuffix
      cases List.suffix_nil.mp hsuffix
    · rw [List.mem_singleton.mp hq] at heq
      cases r <;> cases heq
    · cases hnone
    · cases hc
    · rw [below_srcName] at hc
      split at hc <;> cases hc
    · rw [below_srcName, if_neg]
      rintro (h | h)
      · cases h
      · obtain ⟨-, rfl⟩ := List.cons.inj h
        cases hc
  exact not_alwaysKeeps emptyAndFile_movable (by decide) emptyAndFile_finite hclear
    (r := [entryName]) (c := [1]) rfl rfl
    (hkeeps _ _ _ _ _ _ emptyAndFile_movable (by decide) emptyAndFile_finite)

example :
    (moveDirectory [] (fun _ => false) 3 [115] [100]
      { files := emptyAndFile, calls := 0, failed := false }).map (fun s =>
        (s.failed, s.files.node [srcName], s.files.node [entryName, destName]))
      = some (false, none, some (.file [1])) := by decide

-- `x/../d`, where there is no `x`
example :
    (moveDirectory [] (fun _ => false) 3 [115] [120, 47, 46, 46, 47, 100]
      { files := emptyAndFile, calls := 0, failed := false }).map (·.failed) = some true := by
  decide

theorem bare_root : (FileTree.bare : Files).node [] = some .dir := rfl

theorem bare_srcName : (FileTree.bare : Files).node [srcName] = none := rfl

/-- `/s` with nothing in it. -/
def emptySrc : Files := FileTree.bare.put [] srcName .dir bare_root bare_srcName

theorem emptySrc_dir : emptySrc.node [srcName] = some .dir := by decide

theorem emptySrc_absent : emptySrc.node [entryName, srcName] = none := by decide

/-- `/s` with one file. -/
def oneFile : Files := emptySrc.put [srcName] entryName (.file [1]) emptySrc_dir emptySrc_absent

theorem below_oneFile {r : Path} (h : below oneFile [srcName] r ≠ none) :
    r = [] ∨ r = [entryName] := by
  match r with
  | [] => exact .inl rfl
  | [a] =>
      by_cases ha : a = entryName
      · exact .inr (by rw [ha])
      · exact absurd (by
          simp [below, oneFile, emptySrc, FileTree.put, FileTree.bare, srcName, ha]) h
  | _ :: _ :: _ => exact absurd (by simp [below, oneFile, emptySrc, FileTree.put, FileTree.bare]) h

theorem oneFile_movable : Movable [] [115] [102] [srcName] [freeName] oneFile := by
  refine ⟨by decide, by decide, ⟨by decide, by decide⟩, rfl, fun r c c' _ hdest => ?_,
    fun r hr hne => ?_⟩
  · rw [below, FileTree.below_none (by decide) r] at hdest
    cases hdest
  · obtain rfl := (below_oneFile hne).resolve_left hr
    exact ⟨by decide, by decide⟩

theorem oneFile_depth {r : Path} (h : below oneFile [srcName] r ≠ none) : r.length < 2 := by
  rcases below_oneFile h with rfl | rfl <;> decide

/-- Nothing stands in the way of `/s` to go to `/f`. -/
theorem moveDirectory_loses_nothing_free :
    AlwaysKeeps [] [115] [102] [srcName] [freeName] oneFile :=
  (moveDirectory_loses_nothing_iff oneFile_movable (by decide)
    ⟨2, fun _ => oneFile_depth⟩).mpr (.inl fun r c _ hfile => by
      rw [below, FileTree.below_none (by decide) r] at hfile
      cases hfile)

end OsInParts.FileIO
