import Mathlib.Algebra.GroupWithZero.Nat
import Mathlib.Data.List.Infix
import Mathlib.Data.List.Nodup
import Mathlib.Logic.Function.Basic

/-!
# Directories — a tree of directories and files

A tree of directories as the map from paths to what is there. A path lists its
names from the inside out, so that `a :: p` is the entry `a` of `p`, and
`r ++ p` the path `r` below `p`. What is there has a directory above it, and
every directory lists its entries once.

A tree changes by one entry at a time, where that keeps it a tree: an entry is
put into a directory, or removed if there is nothing below it. What has changed
elsewhere does not disturb a walk that is still to come (`Within.intact`).
-/

namespace Lib.Directories

open scoped List

/-- What may be at a path. -/
inductive Node (β : Type*) where
  | dir
  | file (content : β)
  deriving DecidableEq

structure FileTree (ν β : Type*) where
  node : List ν → Option (Node β)
  names : List ν → List ν
  root : node [] = some .dir
  mem_names : ∀ p a, a ∈ names p ↔ node (a :: p) ≠ none
  nodup : ∀ p, (names p).Nodup
  parent : ∀ p a, node (a :: p) ≠ none → node p = some .dir

variable {ν β : Type*} {t : FileTree ν β} {p q r : List ν} {a : ν} {x : Node β}

theorem eq_none_of_ne {x : Option (Node β)} (hdir : x ≠ some .dir)
    (hfile : ∀ c, x ≠ some (.file c)) : x = none :=
  match x with
  | none => rfl
  | some .dir => absurd rfl hdir
  | some (.file c) => absurd rfl (hfile c)

/-! ## Two paths apart -/

/-- Neither path lies inside the other. -/
structure Apart (S D : List ν) : Prop where
  left : ¬ S <:+ D
  right : ¬ D <:+ S

theorem Apart.ne {S D : List ν} (h : Apart S D) (r r' : List ν) : r ++ S ≠ r' ++ D := by
  intro heq
  have hS : S <:+ r ++ S := List.suffix_append r S
  have hD : D <:+ r ++ S := heq ▸ List.suffix_append r' D
  rcases List.suffix_or_suffix_of_suffix hS hD with hSD | hDS
  · exact h.left hSD
  · exact h.right hDS

theorem Apart.ne_right {S D : List ν} (h : Apart S D) (r : List ν) : r ++ S ≠ D := h.ne r []

theorem Apart.symm {S D : List ν} (h : Apart S D) : Apart D S := ⟨h.right, h.left⟩

theorem Apart.entry {S D : List ν} (h : Apart S D) (a b : ν) : Apart (a :: S) (b :: D) := by
  constructor
  · intro hab
    obtain ⟨r, hr⟩ := hab
    exact h.ne (r ++ [a]) [b] (by simpa using hr)
  · intro hba
    obtain ⟨r, hr⟩ := hba
    exact h.ne [a] (r ++ [b]) (by simpa using hr.symm)

/-- What is below an entry of one is below no entry of the other. -/
theorem Apart.entries {S D : List ν} (h : Apart S D) (a b : ν) (r : List ν) :
    ¬ (b :: D) <:+ r ++ a :: S := by
  rintro ⟨r', hr'⟩
  exact (h.entry a b).ne r r' hr'.symm

/-- Two entries of one directory. -/
theorem not_suffix_of_ne {S : List ν} {a b : ν} (h : a ≠ b) (r : List ν) :
    ¬ (a :: S) <:+ r ++ b :: S := by
  intro ha
  have hb : (b :: S) <:+ r ++ b :: S := List.suffix_append r _
  obtain ⟨r', hr'⟩ := List.suffix_of_suffix_length_le ha hb le_rfl
  have hnil : r' = [] := by
    have hlength := congrArg List.length hr'
    simpa using hlength
  rw [hnil, List.nil_append] at hr'
  exact h (List.cons.inj hr').1

/-- The root is apart from nothing. -/
theorem Apart.ne_nil {S D : List ν} (h : Apart S D) : D ≠ [] := by
  rintro rfl
  exact h.right List.nil_suffix

/-! ## What is in a tree -/

/-- What is at the relative path `r` below `p`. -/
def below (t : FileTree ν β) (p r : List ν) : Option (Node β) := t.node (r ++ p)

@[simp] theorem below_nil (t : FileTree ν β) (p : List ν) : below t p [] = t.node p := rfl

theorem below_entry (t : FileTree ν β) (a : ν) (p r : List ν) :
    below t (a :: p) r = below t p (r ++ [a]) := by
  rw [below, below, List.append_assoc, List.singleton_append]

/-- The same is below `p`, and listed in the same order. -/
structure SameBelow (p : List ν) (t t' : FileTree ν β) : Prop where
  node : ∀ r, t'.node (r ++ p) = t.node (r ++ p)
  names : ∀ r, t'.names (r ++ p) = t.names (r ++ p)

theorem SameBelow.below_eq {t' : FileTree ν β} (h : SameBelow p t t') : below t' p = below t p :=
  funext h.node

theorem SameBelow.entry {t' : FileTree ν β} (h : SameBelow p t t') (a : ν) :
    SameBelow (a :: p) t t' where
  node := fun r => by simpa using h.node (r ++ [a])
  names := fun r => by simpa using h.names (r ++ [a])

theorem SameBelow.trans {t' t'' : FileTree ν β} (h : SameBelow p t t') (h' : SameBelow p t' t'') :
    SameBelow p t t'' where
  node := fun r => (h'.node r).trans (h.node r)
  names := fun r => (h'.names r).trans (h.names r)

/-- Every name on the way from `p` down to `q` is the last one that is listed. -/
def LastOn (t : FileTree ν β) (p q : List ν) : Prop :=
  ∀ r a r', q = r ++ a :: (r' ++ p) → (t.names (r' ++ p)).getLast? = some a

theorem lastOn_iff : LastOn t p q ↔
    ∀ a, (a :: p) <:+ q → (t.names p).getLast? = some a ∧ LastOn t (a :: p) q := by
  constructor
  · rintro h a ⟨r, rfl⟩
    refine ⟨h r a [] rfl, fun r₁ b r' heq => ?_⟩
    simpa using h r₁ b (r' ++ [a]) (by simpa using heq)
  · intro h r a r' heq
    rcases List.eq_nil_or_concat r' with rfl | ⟨r', b, rfl⟩
    · exact (h a ⟨r, heq.symm⟩).1
    · have hb := (h b ⟨r ++ a :: r', by simp [heq]⟩).2 r a r' (by simp [heq])
      simpa using hb

theorem LastOn.entry (h : LastOn t p q) (a : ν) : LastOn t (a :: p) q := fun r b r' heq => by
  simpa using h r b (r' ++ [a]) (by simpa using heq)

theorem LastOn.congr {t' : FileTree ν β} (h : LastOn t p q) (hsame : SameBelow p t t') :
    LastOn t' p q := fun r a r' heq => by
  rw [hsame.names]
  exact h r a r' heq

namespace FileTree

/-- Only the root. -/
def bare : FileTree ν β where
  node p := match p with
    | [] => some .dir
    | _ :: _ => none
  names _ := []
  root := rfl
  mem_names := fun _ _ => by simp
  nodup := fun _ => List.nodup_nil
  parent := fun _ _ h => absurd rfl h

/-- What has something below it is a directory. -/
theorem above (h : t.node (r ++ p) ≠ none) (hr : r ≠ []) : t.node p = some .dir := by
  induction r with
  | nil => exact absurd rfl hr
  | cons a r ih =>
      have hdir := t.parent (r ++ p) a h
      cases r with
      | nil => exact hdir
      | cons b r => exact ih (by rw [hdir]; exact Option.some_ne_none _) (List.cons_ne_nil _ _)

/-- Below what is not a directory there is nothing. -/
theorem below_eq_none (h : t.node p ≠ some .dir) (hr : r ≠ []) : t.node (r ++ p) = none := by
  by_contra hne
  exact h (above hne hr)

theorem below_none (h : t.node p = none) (r : List ν) : t.node (r ++ p) = none := by
  cases r with
  | nil => exact h
  | cons a r => exact below_eq_none (by rw [h]; simp) (List.cons_ne_nil _ _)

theorem names_eq_nil_iff : t.names p = [] ↔ ∀ a, t.node (a :: p) = none := by
  rw [List.eq_nil_iff_forall_not_mem]
  exact forall_congr' fun a => by rw [t.mem_names, not_not]

theorem names_of_ne_dir (h : t.node p ≠ some .dir) : t.names p = [] :=
  names_eq_nil_iff.mpr fun a => below_eq_none h (List.cons_ne_nil a [])

/-! ## The directories of a tree -/

/-- The directories at and below `p`, as relative paths shorter than `n`. -/
def dirs (t : FileTree ν β) : ℕ → List ν → List (List ν)
  | 0, _ => []
  | n + 1, p =>
      match t.node p with
      | some .dir => [] :: (t.names p).flatMap fun a => (dirs t n (a :: p)).map (· ++ [a])
      | _ => []

theorem dirs_succ (h : t.node p = some .dir) (n : ℕ) :
    t.dirs (n + 1) p
      = [] :: (t.names p).flatMap fun a => (t.dirs n (a :: p)).map (· ++ [a]) := by
  rw [dirs, h]

theorem dirs_of_not_dir (h : t.node p ≠ some .dir) (n : ℕ) : t.dirs n p = [] := by
  cases n with
  | zero => rfl
  | succ n =>
      rw [dirs]
      split
      · exact absurd ‹_› h
      · rfl

theorem mem_dirs {n : ℕ} : r ∈ t.dirs n p ↔ t.node (r ++ p) = some .dir ∧ r.length < n := by
  induction n generalizing p r with
  | zero => simp [dirs]
  | succ n ih =>
      by_cases hp : t.node p = some .dir
      · rw [dirs_succ hp]
        rcases List.eq_nil_or_concat r with rfl | ⟨r, a, rfl⟩
        · simp [hp]
        · have hnode : t.node (r ++ a :: p) = some .dir → a ∈ t.names p := by
            intro hdir
            rw [t.mem_names]
            intro hnone
            rw [below_none hnone r] at hdir
            cases hdir
          simp only [List.concat_eq_append, List.mem_cons, List.append_eq_nil_iff, List.cons_ne_nil,
            and_false, false_or, List.mem_flatMap, List.mem_map, ih, List.append_assoc,
            List.cons_append, List.nil_append, List.length_append, List.length_singleton,
            Nat.add_lt_add_iff_right]
          constructor
          · rintro ⟨b, -, r', hr', heq⟩
            obtain ⟨rfl, hab⟩ := List.append_inj' heq rfl
            cases hab
            exact hr'
          · intro hr
            exact ⟨a, hnode hr.1, r, hr, rfl⟩
      · rw [dirs_of_not_dir hp]
        have hnot : t.node (r ++ p) ≠ some .dir := by
          rcases eq_or_ne r [] with rfl | hr
          · exact hp
          · rw [below_eq_none hp hr]
            exact (Option.some_ne_none _).symm
        simp [hnot]

theorem nodup_dirs (n : ℕ) (p : List ν) : (t.dirs n p).Nodup := by
  induction n generalizing p with
  | zero => exact List.nodup_nil
  | succ n ih =>
      by_cases hp : t.node p = some .dir
      · rw [dirs_succ hp, List.nodup_cons, List.nodup_flatMap]
        refine ⟨by simp, fun a _ => (ih (a :: p)).map (List.append_left_injective [a]), ?_⟩
        refine (t.nodup p).imp fun {a b} hab r ha hb => ?_
        obtain ⟨r₁, -, h1⟩ := List.mem_map.mp ha
        obtain ⟨r₂, -, h2⟩ := List.mem_map.mp hb
        exact hab (List.cons.inj (List.append_inj' (h1.trans h2.symm) rfl).2).1
      · rw [dirs_of_not_dir hp]
        exact List.nodup_nil

/-- A directory, and the directories of its entries. -/
theorem length_dirs_succ (h : t.node p = some .dir) (n : ℕ) :
    (t.dirs (n + 1) p).length
      = ((t.names p).map fun a => (t.dirs n (a :: p)).length).sum + 1 := by
  rw [dirs_succ h, List.length_cons, List.length_flatMap]
  simp only [List.length_map]

/-- Their number depends only on what is a directory below `p`. -/
theorem length_dirs_congr {t' : FileTree ν β}
    (h : ∀ r, t.node (r ++ p) = some .dir ↔ t'.node (r ++ p) = some .dir) (n : ℕ) :
    (t.dirs n p).length = (t'.dirs n p).length := by
  refine ((List.perm_ext_iff_of_nodup (nodup_dirs n p) (nodup_dirs n p)).mpr fun r => ?_).length_eq
  rw [mem_dirs, mem_dirs, h]

variable [DecidableEq ν]

/-- The new entry `a` of the directory `p`. -/
def put (t : FileTree ν β) (p : List ν) (a : ν) (x : Node β) (hp : t.node p = some .dir)
    (hnew : t.node (a :: p) = none) : FileTree ν β where
  node := Function.update t.node (a :: p) (some x)
  names := Function.update t.names p (t.names p ++ [a])
  root := by rw [Function.update_of_ne (List.cons_ne_nil a p).symm, t.root]
  mem_names := fun q b => by
    by_cases hq : q = p
    · subst hq
      by_cases hb : b = a
      · subst hb
        simp
      · have hne : b :: q ≠ a :: q := fun h => hb (List.cons.inj h).1
        rw [Function.update_self, Function.update_of_ne hne, ← t.mem_names]
        simp [hb]
    · have hne : b :: q ≠ a :: p := fun h => hq (List.cons.inj h).2
      rw [Function.update_of_ne hq, Function.update_of_ne hne, t.mem_names]
  nodup := fun q => by
    by_cases hq : q = p
    · subst hq
      have hnot : a ∉ t.names q := by simp [t.mem_names, hnew]
      rw [Function.update_self]
      exact List.nodup_append.mpr ⟨t.nodup q, List.nodup_singleton a, fun b hb c hc => by
        rw [List.mem_singleton.mp hc]
        rintro rfl
        exact hnot hb⟩
    · rw [Function.update_of_ne hq]
      exact t.nodup q
  parent := fun q b hb => by
    have hq : q ≠ a :: p := by
      rintro rfl
      -- nothing is below the new entry
      have hnone : t.node (b :: a :: p) = none := below_none hnew [b]
      rw [Function.update_of_ne (by simp), hnone] at hb
      exact hb rfl
    rw [Function.update_of_ne hq]
    by_cases hbq : b :: q = a :: p
    · rw [(List.cons.inj hbq).2, hp]
    · rw [Function.update_of_ne hbq] at hb
      exact t.parent q b hb

/-- The entry `a` of `p`, with nothing below it, is removed. -/
def remove (t : FileTree ν β) (p : List ν) (a : ν) (hempty : t.names (a :: p) = []) :
    FileTree ν β where
  node := Function.update t.node (a :: p) none
  names := Function.update t.names p ((t.names p).erase a)
  root := by rw [Function.update_of_ne (List.cons_ne_nil a p).symm, t.root]
  mem_names := fun q b => by
    by_cases hq : q = p
    · subst hq
      rw [Function.update_self, (t.nodup q).mem_erase_iff, t.mem_names]
      by_cases hb : b = a
      · subst hb
        simp
      · have hne : b :: q ≠ a :: q := fun h => hb (List.cons.inj h).1
        rw [Function.update_of_ne hne]
        exact ⟨fun h => h.2, fun h => ⟨hb, h⟩⟩
    · have hne : b :: q ≠ a :: p := fun h => hq (List.cons.inj h).2
      rw [Function.update_of_ne hq, Function.update_of_ne hne, t.mem_names]
  nodup := fun q => by
    by_cases hq : q = p
    · subst hq
      rw [Function.update_self]
      exact (t.nodup q).erase a
    · rw [Function.update_of_ne hq]
      exact t.nodup q
  parent := fun q b hb => by
    have hbq : b :: q ≠ a :: p := fun h => by
      rw [h, Function.update_self] at hb
      exact hb rfl
    rw [Function.update_of_ne hbq] at hb
    have hq : q ≠ a :: p := by
      rintro rfl
      exact hb (names_eq_nil_iff.mp hempty b)
    rw [Function.update_of_ne hq]
    exact t.parent q b hb

section Lookup

variable (hp : t.node p = some .dir) (hnew : t.node (a :: p) = none)
  (hempty : t.names (a :: p) = [])

@[simp] theorem put_self : (t.put p a x hp hnew).node (a :: p) = some x :=
  Function.update_self ..

theorem put_of_ne (h : q ≠ a :: p) : (t.put p a x hp hnew).node q = t.node q :=
  Function.update_of_ne h ..

@[simp] theorem put_names_self : (t.put p a x hp hnew).names p = t.names p ++ [a] :=
  Function.update_self ..

theorem put_names_of_ne (h : q ≠ p) : (t.put p a x hp hnew).names q = t.names q :=
  Function.update_of_ne h ..

@[simp] theorem remove_self : (t.remove p a hempty).node (a :: p) = none :=
  Function.update_self ..

theorem remove_of_ne (h : q ≠ a :: p) : (t.remove p a hempty).node q = t.node q :=
  Function.update_of_ne h ..

@[simp] theorem remove_names_self : (t.remove p a hempty).names p = (t.names p).erase a :=
  Function.update_self ..

theorem remove_names_of_ne (h : q ≠ p) : (t.remove p a hempty).names q = t.names q :=
  Function.update_of_ne h ..

theorem remove_names_sublist (q : List ν) : (t.remove p a hempty).names q <+ t.names q := by
  by_cases hq : q = p
  · subst hq
    rw [remove_names_self]
    exact List.erase_sublist
  · rw [remove_names_of_ne hempty hq]

/-- A new entry is listed last. -/
theorem sublist_of_put {b c : ν} (hne : c :: q ≠ a :: p)
    (h : [b, c] <+ (t.put p a x hp hnew).names q) : [b, c] <+ t.names q := by
  by_cases hq : q = p
  · subst hq
    rw [put_names_self] at h
    have hrev : [c, b] <+ a :: (t.names q).reverse := by simpa using h.reverse
    cases hrev with
    | cons _ hrev => simpa using hrev.reverse
    | cons_cons _ _ => exact absurd rfl hne
  · rwa [put_names_of_ne hp hnew hq] at h

end Lookup

end FileTree

/-! ## The order of a walk -/

/-- `r₁` is entered no later than `r` when the tree at `p` is walked: it lies above, or
is listed first where their ways part. -/
def NotAfter (t : FileTree ν β) (p r₁ r : List ν) : Prop :=
  r₁ <:+ r ∨ ∃ x y c a b, r₁ = x ++ a :: c ∧ r = y ++ b :: c ∧ [a, b] <+ t.names (c ++ p)

theorem NotAfter.entry {r₁ : List ν} (h : NotAfter t (a :: p) r₁ r) :
    NotAfter t p (r₁ ++ [a]) (r ++ [a]) := by
  rcases h with ⟨x, rfl⟩ | ⟨x, y, c, b, b', rfl, rfl, hlisted⟩
  · exact .inl ⟨x, by simp⟩
  · exact .inr ⟨x, y, c ++ [a], b, b', by simp, by simp, by simpa using hlisted⟩

/-- A walk of the tree at `p` finds the same directories in the same order, and
everything that was there. -/
structure Intact (p : List ν) (t t' : FileTree ν β) : Prop where
  dirs : ∀ r, t'.node (r ++ p) = some .dir ↔ t.node (r ++ p) = some .dir
  kept : ∀ r, t'.node (r ++ p) = none → t.node (r ++ p) = none
  order : ∀ r a b, t.node (a :: (r ++ p)) = some .dir → t.node (b :: (r ++ p)) = some .dir →
    [a, b] <+ t'.names (r ++ p) → [a, b] <+ t.names (r ++ p)

theorem Intact.refl (p : List ν) (t : FileTree ν β) : Intact p t t :=
  ⟨fun _ => Iff.rfl, fun _ h => h, fun _ _ _ _ _ h => h⟩

theorem Intact.trans {t' t'' : FileTree ν β} (h : Intact p t t') (h' : Intact p t' t'') :
    Intact p t t'' where
  dirs := fun r => (h'.dirs r).trans (h.dirs r)
  kept := fun r hnone => h.kept r (h'.kept r hnone)
  order := fun r a b ha hb hlisted => h.order r a b ha hb
    (h'.order r a b ((h.dirs (a :: r)).mpr ha) ((h.dirs (b :: r)).mpr hb) hlisted)

theorem Intact.entry {t' : FileTree ν β} (h : Intact p t t') (a : ν) : Intact (a :: p) t t' where
  dirs := fun r => by simpa using h.dirs (r ++ [a])
  kept := fun r => by simpa using h.kept (r ++ [a])
  order := fun r b c => by simpa using h.order (r ++ [a]) b c

theorem NotAfter.congr {t' : FileTree ν β} {r₁ : List ν} (hintact : Intact p t t')
    (h1 : t.node (r₁ ++ p) = some .dir) (h2 : t.node (r ++ p) = some .dir)
    (h : NotAfter t' p r₁ r) : NotAfter t p r₁ r := by
  have habove : ∀ x a c, t.node ((x ++ a :: c) ++ p) = some .dir →
      t.node (a :: (c ++ p)) = some .dir := fun x a c hdir => by
    rcases eq_or_ne x [] with rfl | hx
    · exact hdir
    · refine FileTree.above (r := x) ?_ hx
      rw [← List.cons_append, ← List.append_assoc, hdir]
      simp
  rcases h with h | ⟨x, y, c, a, b, rfl, rfl, hlisted⟩
  · exact .inl h
  · exact .inr ⟨x, y, c, a, b, rfl, rfl,
      hintact.order c a b (habove x a c h1) (habove y b c h2) hlisted⟩

/-! ## Where a tree may have changed -/

/-- What has gone was below `p`, and new directories are where `made` says. -/
structure Within (p : List ν) (made : List ν → Prop) (t t' : FileTree ν β) : Prop where
  removed : ∀ q, t.node q = some .dir → t'.node q ≠ some .dir → p <:+ q
  vacated : ∀ q, t.node q ≠ none → t'.node q = none → p <:+ q
  made : ∀ q, t'.node q = some .dir → t.node q ≠ some .dir → made q
  order : ∀ q a b, ¬ p <:+ a :: q → ¬ p <:+ b :: q → t.node (a :: q) = some .dir →
    t.node (b :: q) = some .dir → [a, b] <+ t'.names q → [a, b] <+ t.names q

variable {made made' : List ν → Prop} {t' t'' : FileTree ν β}

theorem Within.refl (p : List ν) (made : List ν → Prop) (t : FileTree ν β) :
    Within p made t t where
  removed := fun _ hdir hno => absurd hdir hno
  vacated := fun _ hne hnone => absurd hnone hne
  made := fun _ hdir hno => absurd hdir hno
  order := fun _ _ _ _ _ _ _ h => h

theorem Within.trans (h : Within p made t t') (h' : Within p made t' t'') :
    Within p made t t'' where
  removed := by
    intro q hdir hno
    by_cases hq : t'.node q = some .dir
    · exact h'.removed q hq hno
    · exact h.removed q hdir hq
  vacated := by
    intro q hne hnone
    by_cases hq : t'.node q = none
    · exact h.vacated q hne hq
    · exact h'.vacated q hq hnone
  made := by
    intro q hdir hno
    by_cases hq : t'.node q = some .dir
    · exact h.made q hq hno
    · exact h'.made q hdir hq
  order := by
    intro q a b hpa hpb ha hb hlisted
    have hstays : ∀ x, ¬ p <:+ x → t.node x = some .dir → t'.node x = some .dir :=
      fun x hx hdir => by
        by_contra hno
        exact hx (h.removed x hdir hno)
    exact h.order q a b hpa hpb ha hb
      (h'.order q a b hpa hpb (hstays _ hpa ha) (hstays _ hpb hb) hlisted)

theorem Within.mono (h : Within p made t t') (hmade : ∀ q, made q → made' q) :
    Within p made' t t' where
  removed := h.removed
  vacated := h.vacated
  made := fun q hdir hno => hmade q (h.made q hdir hno)
  order := h.order

theorem Within.of_entry (h : Within (a :: p) made t t') : Within p made t t' where
  removed := fun q hdir hno => (List.suffix_cons a p).trans (h.removed q hdir hno)
  vacated := fun q hne hnone => (List.suffix_cons a p).trans (h.vacated q hne hnone)
  made := h.made
  order := fun q b c hb hc => h.order q b c
    (fun hsuffix => hb ((List.suffix_cons a p).trans hsuffix))
    fun hsuffix => hc ((List.suffix_cons a p).trans hsuffix)

/-- The tree at `q` is untouched if no directory is made where nothing was in it. -/
theorem Within.intact (h : Within p made t t') (hout : ∀ r, ¬ p <:+ r ++ q)
    (hmade : ∀ r, made (r ++ q) → (∀ a r', r = a :: r' → t.node (r' ++ q) = some .dir) →
      t.node (r ++ q) = some .dir) : Intact q t t' where
  dirs := by
    intro r
    constructor
    · intro hdir
      induction r with
      | nil =>
          by_contra hno
          exact hno (hmade [] (h.made _ hdir hno) fun a r' heq => by cases heq)
      | cons a r ih =>
          by_contra hno
          have habove : t'.node (r ++ q) = some .dir := t'.parent (r ++ q) a (by
            rw [← List.cons_append, hdir]
            simp)
          refine hno (hmade (a :: r) (h.made _ hdir hno) fun b r' heq => ?_)
          obtain ⟨-, rfl⟩ := List.cons.inj heq
          exact ih habove
    · intro hdir
      by_contra hno
      exact hout r (h.removed _ hdir hno)
  kept := by
    intro r hnone
    by_contra hne
    exact hout r (h.vacated _ hne hnone)
  order := fun r a b => h.order (r ++ q) a b (hout (a :: r)) (hout (b :: r))

end Lib.Directories
