import OsInParts.FileIO.MoveRetry

/-!
# MoveHere — the last call of the menu, and what `list` shows of it

`Hard Disk and File IO/q5/list.c`, and `./move . ../q5_files` of `main.c`. A directory
cannot be removed by the name `.`, so `rmdir` fails there in every run. Everything below
the current directory arrives all the same, and the directory is left empty
(`moveDirectory_dots`).
-/

namespace OsInParts.FileIO

open Lib.Directories

/-- The lines that `list_directory` prints, `none` where `opendir` fails. -/
def listDirectory (cwd : Path) (files : Files) (path : List UInt8) : Option (List (List UInt8)) :=
  (opendir cwd files path).map fun entries => entries.map (·.name)

variable {cwd : Path} {S D : Path} {src dest : List UInt8} {files files' : Files}

theorem listDirectory_eq (h : resolve cwd files src = some S) (hdir : files.node S = some .dir) :
    listDirectory cwd files src = some (dot :: dotDot :: (files.names S).map Subtype.val) := by
  obtain ⟨htarget, hwalks⟩ := resolve_eq_some_iff.mp h
  rw [listDirectory, opendir_eq htarget hwalks hdir, Option.map_some, List.map_cons, List.map_cons,
    List.map_map]
  rfl

/-! ## A source that ends in a dot -/

/-- **All but the directory itself** has gone from `S` to `D`. -/
structure Emptied (S D : Path) (files files' : Files) : Prop where
  stays : files'.node S = some .dir
  made : files'.node D = some ((files.node D).getD .dir)
  arrived : ∀ e r, Arrived (below files (e :: S) r) (below files (e :: D) r)
    (below files' (e :: S) r) (below files' (e :: D) r)
  frame : ∀ q, ¬ S <:+ q → ¬ D <:+ q → files'.node q = files.node q

/-- The loop over the entries, where no call fails. -/
theorem foldlM_entries {depth : ℕ} (s₁ : System) (h : Movable cwd src dest S D files)
    (hS : below s₁.files S = below files S)
    (hD : ∀ e, below s₁.files (e :: D) = below files (e :: D))
    (hdepth : ∀ r, below files S r ≠ none → r.length < depth + 1) :
    ∃ s₂, (s₁.files.names S).foldlM (fun s e =>
        moveEntry cwd (fun _ => false) (moveDirectory cwd (fun _ => false) depth) src dest s
          { name := e.val, isDir := decide (s₁.files.node (e :: S) = some .dir) }) s₁ = some s₂ ∧
      Each cwd (fun _ => false) src dest S D (s₁.files.names S) s₁ s₂ := by
  have hentry : ∀ e, below s₁.files (e :: S) = below files (e :: S) := fun e =>
    funext fun r => by rw [below_entry, below_entry, hS]
  refine each_fold _ (System.start files) h.apart (s₁.files.nodup S)
    (fun e he t htS htD => ?_) fun e _ => ⟨hentry e, hD e⟩
  have hnode : s₁.files.node (e :: S) = files.node (e :: S) := congrFun (hentry e) []
  refine moveEntry_outcome h ?_ (by rw [hnode]) htS htD fun hdir => ?_
  · rw [← hnode]
    exact (s₁.files.mem_names S e).mp he
  · refine moveDirectory_outcome _ ((h.entry hdir).congr htS htD) fun r hr => ?_
    rw [htS] at hr
    have hlength := hdepth (r ++ [e]) (by rwa [← below_entry])
    rw [List.length_append, List.length_singleton] at hlength
    omega

/-- The calls of one level in order, where no call fails for an outside reason. -/
theorem moveDirectory_calls {depth : ℕ} (h : Movable cwd src dest S D files)
    (hwalks : Walks cwd files src)
    (hdepth : ∀ r, below files S r ≠ none → r.length < depth + 1) :
    ∃ s₁ s₂, moveDirectory cwd (fun _ => false) (depth + 1) src dest (System.start files)
        = some (s₂.run (fun _ => false) (rmdir cwd s₂.files src)) ∧
      MadeDest cwd (fun _ => false) dest D (System.start files) s₁ ∧
      Each cwd (fun _ => false) src dest S D (s₁.files.names S) s₁ s₂ := by
  have hmake := makeDest_spec (fun _ => false) (s := System.start files) h.destPath h.apart.ne_nil
  unfold moveDirectory
  dsimp only
  generalize makeDest cwd (fun _ => false) dest (System.start files) = s₀ at hmake
  obtain ⟨hsrc, hdest⟩ := hmake.same h.apart
  have hopen := opendir_eq h.srcPath (fun q hq => hmake.dir_stays (hwalks q hq))
    ((hsrc.node []).trans h.dir)
  let s₁ : System := { s₀ with calls := s₀.calls + 1 }
  have hcall : s₀.call (fun _ => false)
      ((opendir cwd s₀.files src).map fun entries => (s₀.files, entries))
        = (s₁, opendir cwd s₀.files src) := by
    rw [hopen]
    rfl
  obtain ⟨s₂, hfold, heach⟩ := foldlM_entries s₁ h hsrc.below_eq hdest hdepth
  refine ⟨s₁, s₂, ?_, hmake.congr rfl rfl, heach⟩
  rw [hcall, hopen]
  dsimp only
  rw [List.foldlM_cons, moveEntry_dots (.inl rfl), Option.bind_eq_bind, Option.bind_some,
    List.foldlM_cons, moveEntry_dots (.inr rfl), Option.bind_eq_bind, Option.bind_some,
    List.foldlM_map, hfold, Option.map_some]

/-- **A directory by a name that ends in a dot**: its entries are moved, and the last
call, which is to remove it, fails. -/
theorem moveDirectory_dots {depth : ℕ} (h : Movable cwd src dest S D files)
    (hwalks : ∀ q ∈ through cwd src ++ through cwd dest,
      files.node q = some .dir ∧ ∀ e, ¬ (e :: S) <:+ q)
    (hdots : endsInDots src = true) (hmakeable : Makeable files dest D)
    (hclear : ∀ e ∈ files.names S, Clear (some ((files.node D).getD .dir))
      (below files (e :: S)) (below files (e :: D)))
    (hdepth : ∀ r, below files S r ≠ none → r.length < depth) :
    ∃ s', moveDirectory cwd (fun _ => false) depth src dest (System.start files) = some s' ∧
      Emptied S D files s'.files := by
  have hpositive := hdepth [] (by rw [below_nil, h.dir]; simp)
  obtain ⟨depth, rfl⟩ := Nat.exists_eq_add_one_of_ne_zero (Nat.ne_of_gt hpositive)
  have hsrc : Walks cwd files src := fun q hq => (hwalks q (List.mem_append_left _ hq)).1
  have hdest : Walks cwd files dest := fun q hq => (hwalks q (List.mem_append_right _ hq)).1
  have haside : Aside cwd src dest S files := aside_of_outside fun q hq => (hwalks q hq).2
  obtain ⟨s₁, s₂, hs', hmake, heach⟩ := moveDirectory_calls h hsrc hdepth
  obtain ⟨hS, hD⟩ := hmake.same h.apart
  -- no call fails up to the last entry
  have hfailed₁ := hmake.smooth (fun _ => rfl) hdest hmakeable rfl
  have hmade := (hmake.success hfailed₁).2.2
  obtain ⟨hlast, hentries⟩ := haside.entries hS
  have hfailed₂ := heach.smooth (fun _ => rfl) (fun q hq => hmake.dir_stays (hsrc q hq)) haside.src
    (fun _ q hq => hmake.dir_stays (hdest q hq)) hlast (fun e he => ⟨hentries e, by
      rw [hmade, (hS.entry e).below_eq, hD]
      rw [show s₁.files.names S = files.names S from hS.names []] at he
      exact hclear e he⟩) hfailed₁
  have hdir : s₂.files.node S = some .dir := by
    rw [(heach.self h.apart).1]
    exact (hS.node []).trans h.dir
  have hrmdir : rmdir cwd s₂.files src = none := by
    obtain ⟨b, q, rfl⟩ := List.exists_cons_of_ne_nil h.apart.symm.ne_nil
    rw [rmdir_eq _ h.srcPath, dif_neg]
    rw [hdots]
    exact fun hand => by cases hand.2.1
  have hremove : RemovedSrc cwd (fun _ => false) src S s₂
      (s₂.run (fun _ => false) (rmdir cwd s₂.files src)) :=
    rmdir_spec h.srcPath h.apart.symm.ne_nil hdir
  refine ⟨_, hs', ?_, ?_, dir_arrived h.apart hmake heach hremove hfailed₂,
    (dir_moved h.apart h.dir hmake heach hremove).frame⟩
  · rw [hrmdir]
    exact hdir
  · rw [hrmdir]
    exact (heach.self h.apart).2.trans hmade

/-! ## The last call of the menu -/

theorem q5Files_entryName : EntryName [113, 53, 95, 102, 105, 108, 101, 115] := by decide

/-- `q5_files`. -/
def q5Files : Name := ⟨[113, 53, 95, 102, 105, 108, 101, 115], q5Files_entryName⟩

/-- `"../q5_files"`. -/
def q5FilesPath : List UInt8 := dotDot ++ slash :: q5Files.val

theorem target_dot (cwd : Path) : target cwd dot = some cwd := rfl

theorem target_dotDot (cwd : Path) : target cwd dotDot = some cwd.tail := rfl

theorem target_q5FilesPath (a : Name) (up : Path) :
    target (a :: up) q5FilesPath = some (q5Files :: up) :=
  Leads.entry q5Files (.inl (target_dotDot (a :: up)))

theorem through_dot (cwd : Path) : through cwd dot = [cwd] := rfl

theorem through_q5FilesPath (a : Name) (up : Path) :
    through (a :: up) q5FilesPath = [a :: up, up] :=
  Leads.through_entry q5Files (.inl (target_dotDot (a :: up)))

theorem endsInDots_dot : endsInDots dot = true := rfl

/-- The program is called in a directory `a`: nothing but directories is both there and
in `../q5_files`, and the path strings fit. -/
structure Ready (a : Name) (up : Path) (files : Files) : Prop where
  dir : files.node (a :: up) = some .dir
  elsewhere : a ≠ q5Files
  notFile : ∀ c, files.node (q5Files :: up) ≠ some (.file c)
  onlyDirs : ∀ r, r ≠ [] → below files (a :: up) r ≠ none → below files (q5Files :: up) r ≠ none →
    below files (a :: up) r = some .dir ∧ below files (q5Files :: up) r = some .dir
  short : ∀ r, r ≠ [] → below files (a :: up) r ≠ none →
    (q5FilesPath ++ render r).length < pathSize

/-- What was in `S` and what was in `D` is in `D`. -/
structure Gathered (S D : Path) (files files' : Files) : Prop where
  stays : files'.node S = some .dir
  emptied : ∀ r, r ≠ [] → below files' S r = none
  union : ∀ r x, below files' D r = some x ↔ below files S r = some x ∨ below files D r = some x
  frame : ∀ q, ¬ S <:+ q → ¬ D <:+ q → files'.node q = files.node q

variable {a : Name} {up : Path}

theorem Ready.movable (h : Ready a up files) :
    Movable (a :: up) dot q5FilesPath (a :: up) (q5Files :: up) files where
  srcPath := target_dot (a :: up)
  destPath := target_q5FilesPath a up
  apart := ⟨not_suffix_of_ne h.elsewhere [], not_suffix_of_ne h.elsewhere.symm []⟩
  dir := h.dir
  noFileTwice := by
    intro r c c' hsrc hdest
    rcases eq_or_ne r [] with rfl | hr
    · exact h.notFile c' hdest
    · rw [(h.onlyDirs r hr (by rw [hsrc]; simp) (by rw [hdest]; simp)).1] at hsrc
      cases hsrc
  short := by
    intro r hr hne
    have hshort := h.short r hr hne
    rw [List.length_append] at hshort ⊢
    have hdot : dot.length ≤ q5FilesPath.length := by decide
    exact ⟨by omega, by rw [List.length_append]; exact hshort⟩

/-- Both strings lead through the current directory, the second also through the one
above it. -/
theorem Ready.walks (h : Ready a up files) {q : Path}
    (hq : q ∈ through (a :: up) dot ++ through (a :: up) q5FilesPath) :
    files.node q = some .dir ∧ ∀ e, ¬ (e :: a :: up) <:+ q := by
  have hup : files.node up = some .dir := files.parent up a (by rw [h.dir]; simp)
  rw [through_dot, through_q5FilesPath] at hq
  have hcases : q = a :: up ∨ q = up := by simpa using hq
  rcases hcases with rfl | rfl
  · exact ⟨h.dir, fun e => not_cons_suffix e _⟩
  · exact ⟨hup, fun e hsuffix => not_cons_suffix a q ((List.suffix_cons e _).trans hsuffix)⟩

theorem Ready.makeable (h : Ready a up files) : Makeable files q5FilesPath (q5Files :: up) where
  above := fun _ => ⟨endsInDots_entry q5Files, files.parent up a (by rw [h.dir]; simp)⟩
  found := fun c hc => absurd hc (h.notFile c)

theorem Ready.clear (h : Ready a up files) (e : Name) :
    Clear (some ((files.node (q5Files :: up)).getD .dir)) (below files (e :: a :: up))
      (below files (e :: q5Files :: up)) where
  makeable := by
    intro _
    rcases hnode : files.node (q5Files :: up) with _ | _ | c
    · rfl
    · rfl
    · exact absurd hnode (h.notFile c)
  noDirForFile := by
    intro r c hsrc hdest
    rw [below_entry] at hsrc hdest
    rw [(h.onlyDirs _ (by simp) (by rw [hsrc]; simp) (by rw [hdest]; simp)).1] at hsrc
    cases hsrc
  nothingBelowFile := by
    intro r c b hdest
    by_contra hne
    -- what it would go below is a directory on both sides
    have hdir : below files (e :: a :: up) r = some .dir := files.parent _ b hne
    rw [below_entry] at hdest hdir
    rw [(h.onlyDirs _ (by simp) (by rw [hdir]; simp) (by rw [hdest]; simp)).2] at hdest
    cases hdest

/-- All but the directory has gone: the two trees are one. -/
theorem Ready.gathered (h : Ready a up files)
    (hemptied : Emptied (a :: up) (q5Files :: up) files files') :
    Gathered (a :: up) (q5Files :: up) files files' where
  stays := hemptied.stays
  emptied := by
    intro r hr
    obtain ⟨r, e, rfl⟩ := (List.eq_nil_or_concat r).resolve_left hr
    rw [List.concat_eq_append, ← below_entry]
    exact (hemptied.arrived e r).1
  union := by
    intro r x
    rcases List.eq_nil_or_concat r with rfl | ⟨r, e, rfl⟩
    · rw [below_nil, below_nil, below_nil, hemptied.made, h.dir]
      rcases hnode : files.node (q5Files :: up) with _ | _ | c
      · simp
      · simp
      · exact absurd hnode (h.notFile c)
    · have hdest := (hemptied.arrived e r).2
      have honly := h.onlyDirs (r ++ [e]) (by simp)
      rw [List.concat_eq_append, ← below_entry files', ← below_entry files, ← below_entry files]
      rw [← below_entry, ← below_entry] at honly
      rcases hsrc : below files (e :: a :: up) r with _ | _ | c <;> rw [hsrc] at hdest honly
      · rw [hdest]
        simp
      · rw [hdest]
        rcases hold : below files (e :: q5Files :: up) r with _ | y
        · simp
        · rw [hold] at honly
          have hdir := (honly (by simp) (by simp)).2
          rw [hdir]
          simp
      · rw [hdest]
        have hnone : below files (e :: q5Files :: up) r = none := by
          by_contra hne
          cases (honly (by simp) hne).1
        rw [hnone]
        simp
  frame := hemptied.frame

theorem mem_lines {files : Files} {p : Path} {line : List UInt8} :
    line ∈ dot :: dotDot :: (files.names p).map Subtype.val ↔
      line = dot ∨ line = dotDot ∨ ∃ e : Name, e.val = line ∧ files.node (e :: p) ≠ none := by
  simp only [List.mem_cons, List.mem_map, files.mem_names, and_comm]

/-- What is listed, also where there is no directory. -/
theorem mem_listDirectory (h : resolve cwd files src = some S) {line : List UInt8} :
    line ∈ (listDirectory cwd files src).getD [] ↔ files.node S = some .dir ∧
      (line = dot ∨ line = dotDot ∨ ∃ e : Name, e.val = line ∧ files.node (e :: S) ≠ none) := by
  by_cases hdir : files.node S = some .dir
  · rw [listDirectory_eq h hdir, Option.getD_some, mem_lines]
    exact (and_iff_right hdir).symm
  · have hnone : listDirectory cwd files src = none := by simp [listDirectory, opendir, h, hdir]
    rw [hnone, Option.getD_none]
    exact iff_of_false List.not_mem_nil fun hand => hdir hand.1

/-- The names of a directory are printed once each. -/
theorem nodup_listDirectory (files : Files) (p : Path) :
    (dot :: dotDot :: (files.names p).map Subtype.val).Nodup := by
  refine List.nodup_cons.mpr ⟨fun hmem => ?_, List.nodup_cons.mpr ⟨fun hmem => ?_,
    (files.nodup p).map Subtype.val_injective⟩⟩
  · rcases List.mem_cons.mp hmem with heq | hmem
    · cases heq
    · obtain ⟨e, -, he⟩ := List.mem_map.mp hmem
      exact e.property.2.2.2.1 he
  · obtain ⟨e, -, he⟩ := List.mem_map.mp hmem
    exact e.property.2.2.2.2 he

theorem resolve_dot {p : Path} (hdir : files.node p = some .dir) : resolve p files dot = some p :=
  resolve_eq_some_iff.mpr ⟨target_dot p, by
    intro q hq
    rw [through_dot, List.mem_singleton] at hq
    rw [hq, hdir]⟩

theorem resolve_q5FilesPath (hdir : files.node (a :: up) = some .dir) :
    resolve (a :: up) files q5FilesPath = some (q5Files :: up) :=
  resolve_eq_some_iff.mpr ⟨target_q5FilesPath a up, by
    have hup : files.node up = some .dir := files.parent up a (by rw [hdir]; simp)
    intro q hq
    rw [through_q5FilesPath] at hq
    have hcases : q = a :: up ∨ q = up := by simpa using hq
    rcases hcases with rfl | rfl
    · exact hdir
    · exact hup⟩

/-- **The menu's move, between two listings**: the current directory is left empty, and
`../q5_files` lists what both have listed before. -/
theorem menu_gathers {depth : ℕ} (h : Ready a up files)
    (hdepth : ∀ r, below files (a :: up) r ≠ none → r.length < depth) :
    ∃ s' before after, moveDirectory (a :: up) (fun _ => false) depth dot q5FilesPath
        (System.start files) = some s' ∧
      Gathered (a :: up) (q5Files :: up) files s'.files ∧
      listDirectory (a :: up) s'.files dot = some [dot, dotDot] ∧
      listDirectory (a :: up) files dot = some before ∧
      listDirectory (a :: up) s'.files q5FilesPath = some after ∧ after.Nodup ∧
      ∀ line, line ∈ after ↔
        line ∈ before ∨ line ∈ (listDirectory (a :: up) files q5FilesPath).getD [] := by
  obtain ⟨s', hs', hemptied⟩ := moveDirectory_dots h.movable (fun q => h.walks) endsInDots_dot
    h.makeable (fun e _ => h.clear e) hdepth
  have hgathered := h.gathered hemptied
  have hdest : s'.files.node (q5Files :: up) = some .dir :=
    (hgathered.union [] .dir).mpr (.inl h.dir)
  have hempty : s'.files.names (a :: up) = [] :=
    FileTree.names_eq_nil_iff.mpr fun e => hgathered.emptied [e] (by simp)
  have hdot := resolve_dot h.dir
  have hnow := listDirectory_eq (resolve_dot hgathered.stays) hgathered.stays
  rw [hempty] at hnow
  refine ⟨s', _, _, hs', hgathered, hnow, listDirectory_eq hdot h.dir,
    listDirectory_eq (resolve_q5FilesPath hgathered.stays) hdest, nodup_listDirectory _ _,
    fun line => ?_⟩
  have hunion : ∀ e, s'.files.node (e :: q5Files :: up) ≠ none ↔
      files.node (e :: a :: up) ≠ none ∨ files.node (e :: q5Files :: up) ≠ none := by
    intro e
    simp only [Option.ne_none_iff_exists', ← exists_or]
    exact exists_congr (hgathered.union [e])
  rw [mem_lines, mem_lines, mem_listDirectory (resolve_q5FilesPath h.dir)]
  constructor
  · rintro (heq | heq | ⟨e, he, hne⟩)
    · exact .inl (.inl heq)
    · exact .inl (.inr (.inl heq))
    · rcases (hunion e).mp hne with hsrc | hold
      · exact .inl (.inr (.inr ⟨e, he, hsrc⟩))
      · exact .inr ⟨files.parent _ e hold, .inr (.inr ⟨e, he, hold⟩)⟩
  · rintro ((heq | heq | ⟨e, he, hne⟩) | ⟨-, heq | heq | ⟨e, he, hne⟩⟩)
    · exact .inl heq
    · exact .inr (.inl heq)
    · exact .inr (.inr ⟨e, he, (hunion e).mpr (.inl hne)⟩)
    · exact .inl heq
    · exact .inr (.inl heq)
    · exact .inr (.inr ⟨e, he, (hunion e).mpr (.inr hne)⟩)

theorem oneFile_ready : Ready srcName [] oneFile where
  dir := rfl
  elsewhere := by decide
  notFile := by
    intro c hc
    cases hc
  onlyDirs := by
    intro r _ _ hdest
    exact absurd (FileTree.below_none (by decide) r) hdest
  short := by
    intro r hr hne
    obtain rfl := (below_oneFile hne).resolve_left hr
    decide

/-- A directory with one file, and no `../q5_files` yet. -/
theorem menu_gathers_oneFile :
    ∃ s' before after, moveDirectory [srcName] (fun _ => false) 2 dot q5FilesPath
        (System.start oneFile) = some s' ∧
      Gathered [srcName] [q5Files] oneFile s'.files ∧
      listDirectory [srcName] s'.files dot = some [dot, dotDot] ∧
      listDirectory [srcName] oneFile dot = some before ∧
      listDirectory [srcName] s'.files q5FilesPath = some after ∧ after.Nodup ∧
      ∀ line, line ∈ after ↔
        line ∈ before ∨ line ∈ (listDirectory [srcName] oneFile q5FilesPath).getD [] := by
  exact menu_gathers oneFile_ready fun _ => oneFile_depth

end OsInParts.FileIO
