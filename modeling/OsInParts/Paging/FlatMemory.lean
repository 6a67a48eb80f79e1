import OsInParts.Paging.PageTable
import Mathlib.Data.Fintype.Card

/-!
# FlatMemory — paging refines a flat byte map

What the page table is for: a byte at every 32-bit address. `flatStep` is
that machine. `Represents` ties a paging state to a flat memory: frames are
handed out in order and never twice, so the counter equals the number of
mapped pages and stays below `2^20` whenever a page is still unmapped, and
every node of the list belongs to a frame already handed out.
-/

namespace OsInParts.Paging

open Lib.Machine

/-! ## The abstract machine -/

/-- A byte at every address. -/
abbrev FlatMemory := UInt32 → UInt8

def flatStep : Step FlatMemory Op (Option UInt8)
  | m, .load va => (some (m va), some m)
  | m, .store va value => (none, some (Function.update m va value))

/-- What a command stores at `va`. -/
def storedAt (va : UInt32) : Op → Option UInt8
  | .load _ => none
  | .store va' value => if va' = va then some value else none

/-- The value of the most recent store to `va`, `0` if there was none. -/
def lastStored (ops : List Op) (va : UInt32) : UInt8 :=
  (ops.reverse.findSome? (storedAt va)).getD 0

/-- The flat memory after a sequence of commands holds the last stores. -/
theorem final_flatStep (ops : List Op) :
    final flatStep (fun _ => 0) ops = some (lastStored ops) := by
  induction ops using List.reverseRecOn with
  | nil => rfl
  | append_singleton ops op ih =>
      rw [final_append, ih]
      cases op with
      | load va =>
          simp only [Option.bind_some, final, flatStep, Option.some.injEq]
          funext va'
          simp [lastStored, List.findSome?_cons, storedAt]
      | store va value =>
          simp only [Option.bind_some, final, flatStep, Option.some.injEq]
          funext va'
          by_cases h : va' = va
          · subst h
            simp [lastStored, storedAt]
          · simp [lastStored, storedAt, h, Ne.symm h]

/-! ## The list walks -/

theorem findValue_of_absent {pa : UInt32} {nodes : List PhysicalMemoryNode}
    (h : ∀ node ∈ nodes, node.address ≠ pa) : findValue pa nodes = 0 := by
  induction nodes with
  | nil => rfl
  | cons node next ih =>
      rw [findValue, if_neg (h node (by simp))]
      exact ih fun n hn => h n (by simp [hn])

/-- The list `store` leaves behind: a node overwritten, or one put in front. -/
def storeNode (pa : UInt32) (value : UInt8) (nodes : List PhysicalMemoryNode) :
    List PhysicalMemoryNode :=
  (overwrite pa value nodes).getD ({ address := pa, value := value } :: nodes)

theorem findValue_overwrite {pa : UInt32} {value : UInt8} (pa' : UInt32)
    {nodes nodes' : List PhysicalMemoryNode}
    (h : overwrite pa value nodes = some nodes') :
    findValue pa' nodes' = if pa' = pa then value else findValue pa' nodes := by
  induction nodes generalizing nodes' with
  | nil => cases h
  | cons node next ih =>
      rw [overwrite] at h
      split at h
      · rename_i heq
        cases h
        subst heq
        by_cases hpa : pa' = node.address
        · simp [findValue, hpa]
        · simp [findValue, hpa, Ne.symm hpa]
      · rename_i hne
        obtain ⟨next', hn, rfl⟩ := Option.map_eq_some_iff.mp h
        rw [findValue, findValue, ih hn]
        by_cases hnode : node.address = pa'
        · subst hnode
          simp [hne]
        · simp [hnode]

/-- **The walk after a store** reads the stored byte back and nothing else
has changed. -/
theorem findValue_storeNode (pa : UInt32) (value : UInt8) (pa' : UInt32)
    (nodes : List PhysicalMemoryNode) :
    findValue pa' (storeNode pa value nodes)
      = if pa' = pa then value else findValue pa' nodes := by
  unfold storeNode
  cases h : overwrite pa value nodes with
  | none =>
      by_cases hpa : pa' = pa
      · simp [findValue, hpa]
      · simp [findValue, hpa, Ne.symm hpa]
  | some nodes' => exact findValue_overwrite pa' h

theorem mem_overwrite {pa : UInt32} {value : UInt8}
    {nodes nodes' : List PhysicalMemoryNode}
    (h : overwrite pa value nodes = some nodes') {node : PhysicalMemoryNode}
    (hn : node ∈ nodes') : ∃ old ∈ nodes, old.address = node.address := by
  induction nodes generalizing nodes' with
  | nil => cases h
  | cons head next ih =>
      rw [overwrite] at h
      split at h
      · cases h
        rcases List.mem_cons.mp hn with rfl | hn
        · exact ⟨head, by simp, rfl⟩
        · exact ⟨node, by simp [hn], rfl⟩
      · obtain ⟨next', hn', rfl⟩ := Option.map_eq_some_iff.mp h
        rcases List.mem_cons.mp hn with rfl | hn
        · exact ⟨node, by simp, rfl⟩
        · obtain ⟨old, ho, ha⟩ := ih hn' hn
          exact ⟨old, by simp [ho], ha⟩

theorem mem_storeNode {pa : UInt32} {value : UInt8}
    {nodes : List PhysicalMemoryNode} {node : PhysicalMemoryNode}
    (hn : node ∈ storeNode pa value nodes) :
    node.address = pa ∨ ∃ old ∈ nodes, old.address = node.address := by
  unfold storeNode at hn
  cases h : overwrite pa value nodes with
  | none =>
      rw [h, Option.getD_none, List.mem_cons] at hn
      rcases hn with rfl | hn
      · exact .inl rfl
      · exact .inr ⟨node, hn, rfl⟩
  | some nodes' =>
      rw [h, Option.getD_some] at hn
      exact .inr (mem_overwrite h hn)

theorem store_eq (s : State) (va : UInt32) (value : UInt8) :
    store s va value
      = { (translateAddress s va).2 with
          physicalMemory := storeNode (translateAddress s va).1 value
            (translateAddress s va).2.physicalMemory } := by
  unfold store storeNode
  dsimp only
  cases overwrite (translateAddress s va).1 value
    (translateAddress s va).2.physicalMemory <;> rfl

/-! ## The abstraction -/

/-- The pages that have been touched. -/
def mappedPages (s : State) : Finset Page :=
  Finset.univ.filter fun page => (frameOf s page).isSome

/-- **The invariant**: `s` stores the flat memory `m`. -/
structure Represents (s : State) (m : FlatMemory) : Prop where
  count : s.nextFrame.toNat = (mappedPages s).card
  bound : ∀ page frame, frameOf s page = some frame → frame.toNat < s.nextFrame.toNat
  inj : ∀ page page' frame, frameOf s page = some frame →
    frameOf s page' = some frame → page = page'
  nodes : ∀ node ∈ s.physicalMemory, node.address.toNat / 4096 < s.nextFrame.toNat
  mapped : ∀ va frame, frameOf s (pageOf va) = some frame →
    findValue (physical frame va) s.physicalMemory = m va
  unmapped : ∀ va, frameOf s (pageOf va) = none → m va = 0

theorem represents_initial : Represents initial (fun _ => 0) where
  count := by
    simp [initial, mappedPages, frameOf]
  bound := by simp [initial, frameOf]
  inj := by simp [initial, frameOf]
  nodes := by simp [initial]
  mapped := by simp [initial, frameOf]
  unmapped := fun _ _ => rfl

/-- While some page is unmapped the frame counter fits the bit-field. -/
theorem Represents.nextFrame_lt {s : State} {m : FlatMemory} (h : Represents s m)
    {page : Page} (hp : frameOf s page = none) : s.nextFrame.toNat < 2 ^ 20 := by
  have hlt : (mappedPages s).card < (Finset.univ : Finset Page).card :=
    Finset.card_lt_card (Finset.filter_ssubset.mpr ⟨page, by simp, by simp [hp]⟩)
  rw [h.count]
  calc (mappedPages s).card < (Finset.univ : Finset Page).card := hlt
    _ = 2 ^ 20 := by simp [Page, pageTableEntries]

/-- Physical addresses meet only where the virtual ones do. -/
theorem Represents.physical_inj {s : State} {m : FlatMemory} (h : Represents s m)
    {va va' : UInt32} {frame frame' : BitVec 20}
    (hf : frameOf s (pageOf va) = some frame)
    (hf' : frameOf s (pageOf va') = some frame')
    (heq : physical frame va = physical frame' va') : va = va' := by
  have hnat := congrArg UInt32.toNat heq
  rw [physical_toNat, physical_toNat] at hnat
  have hframe : frame = frame' := by
    apply BitVec.eq_of_toNat_eq
    omega
  subst hframe
  exact va_split (h.inj _ _ _ hf hf') (by omega)

theorem mappedPages_fault {s : State} {page : Page} (h : frameOf s page = none) :
    mappedPages (handlePageFault s page.1 page.2) = insert page (mappedPages s) := by
  ext q
  simp only [mappedPages, Finset.mem_filter, Finset.mem_univ, true_and,
    Finset.mem_insert, (handlePageFault_frameOf h).1]
  by_cases hq : q = page
  · subst hq
    simp
  · simp [hq]

/-- A fault changes what is mapped, not what is stored. -/
theorem Represents.fault {s : State} {m : FlatMemory} (h : Represents s m)
    {page : Page} (hp : frameOf s page = none) :
    Represents (handlePageFault s page.1 page.2) m := by
  obtain ⟨hframe, hnext, hmem⟩ := handlePageFault_frameOf hp
  have hlt := h.nextFrame_lt hp
  have hsucc : (s.nextFrame + 1).toNat = s.nextFrame.toNat + 1 := by
    rw [UInt32.toNat_add, show (1 : UInt32).toNat = 1 from rfl]
    omega
  have hnew : (s.nextFrame.toBitVec.setWidth 20).toNat = s.nextFrame.toNat := by
    rw [BitVec.toNat_setWidth, UInt32.toNat_toBitVec]
    exact Nat.mod_eq_of_lt hlt
  refine ⟨?_, ?_, ?_, ?_, ?_, ?_⟩
  · rw [hnext, hsucc, mappedPages_fault hp, Finset.card_insert_of_notMem, h.count]
    simp [mappedPages, hp]
  · intro q frame hq
    rw [hnext, hsucc]
    rw [hframe] at hq
    by_cases hqp : q = page
    · subst hqp
      rw [Function.update_self, Option.some.injEq] at hq
      rw [← hq, hnew]
      omega
    · rw [Function.update_of_ne hqp] at hq
      have := h.bound q frame hq
      omega
  · intro q q' frame hq hq'
    rw [hframe] at hq hq'
    by_cases hqp : q = page <;> by_cases hqp' : q' = page
    · rw [hqp, hqp']
    · subst hqp
      rw [Function.update_self, Option.some.injEq] at hq
      rw [Function.update_of_ne hqp'] at hq'
      have := h.bound q' frame hq'
      rw [← hq, hnew] at this
      omega
    · subst hqp'
      rw [Function.update_self, Option.some.injEq] at hq'
      rw [Function.update_of_ne hqp] at hq
      have := h.bound q frame hq
      rw [← hq', hnew] at this
      omega
    · rw [Function.update_of_ne hqp] at hq
      rw [Function.update_of_ne hqp'] at hq'
      exact h.inj q q' frame hq hq'
  · intro node hn
    rw [hmem] at hn
    rw [hnext, hsucc]
    have := h.nodes node hn
    omega
  · intro va frame hva
    rw [hmem]
    rw [hframe] at hva
    by_cases hpage : pageOf va = page
    · -- the fresh frame has no nodes, and the page was never stored to
      rw [hpage, Function.update_self, Option.some.injEq] at hva
      rw [h.unmapped va (by rw [hpage]; exact hp)]
      apply findValue_of_absent
      intro node hn heq
      have hnode := h.nodes node hn
      rw [heq, physical_toNat, ← hva, hnew] at hnode
      omega
    · rw [Function.update_of_ne hpage] at hva
      exact h.mapped va frame hva
  · intro va hva
    rw [hframe] at hva
    by_cases hpage : pageOf va = page
    · rw [hpage, Function.update_self] at hva
      cases hva
    · rw [Function.update_of_ne hpage] at hva
      exact h.unmapped va hva

/-- **Translation**: the address is mapped afterwards, the answer is its
place in the frame, and the stored memory is the same. -/
theorem Represents.translate {s : State} {m : FlatMemory} (h : Represents s m)
    (va : UInt32) :
    ∃ frame, (translateAddress s va).1 = physical frame va ∧
      frameOf (translateAddress s va).2 (pageOf va) = some frame ∧
      Represents (translateAddress s va).2 m := by
  cases hf : frameOf s (pageOf va) with
  | some frame =>
      rw [translateAddress_hit hf]
      exact ⟨frame, rfl, hf, ⟨h.count, h.bound, h.inj, h.nodes, h.mapped, h.unmapped⟩⟩
  | none =>
      rw [translateAddress_fault hf]
      refine ⟨_, rfl, ?_, h.fault hf⟩
      have := congrFun (handlePageFault_frameOf hf).1 (pageOf va)
      rwa [Function.update_self] at this

/-- Writing a byte through a mapped address writes it in the flat memory. -/
theorem Represents.write {s : State} {m : FlatMemory} (h : Represents s m)
    {va : UInt32} {frame : BitVec 20} (hf : frameOf s (pageOf va) = some frame)
    (value : UInt8) :
    Represents
      { s with physicalMemory := storeNode (physical frame va) value s.physicalMemory }
      (Function.update m va value) where
  count := h.count
  bound := h.bound
  inj := h.inj
  nodes := by
    intro node hn
    rcases mem_storeNode hn with heq | ⟨old, ho, heq⟩
    · have := h.bound _ _ hf
      rw [heq, physical_toNat]
      show _ < s.nextFrame.toNat
      omega
    · rw [← heq]
      exact h.nodes old ho
  mapped := by
    intro va' frame' hf'
    show findValue _ (storeNode _ _ _) = _
    rw [findValue_storeNode]
    by_cases hva : va' = va
    · subst hva
      have : frame' = frame := Option.some.inj (hf'.symm.trans hf)
      simp [this]
    · rw [if_neg (fun heq => hva (h.physical_inj hf' hf heq)),
        Function.update_of_ne hva]
      exact h.mapped va' frame' hf'
  unmapped := by
    intro va' hva'
    have hne : va' ≠ va := by
      rintro rfl
      exact absurd (hf.symm.trans hva') (by simp)
    rw [Function.update_of_ne hne]
    exact h.unmapped va' hva'

/-! ## The refinement -/

theorem Represents.load {s : State} {m : FlatMemory} (h : Represents s m)
    (va : UInt32) : (load s va).1 = m va ∧ Represents (load s va).2 m := by
  obtain ⟨frame, hpa, hf, hs⟩ := h.translate va
  refine ⟨?_, hs⟩
  show findValue (translateAddress s va).1 _ = m va
  rw [hpa]
  exact hs.mapped va frame hf

theorem Represents.store {s : State} {m : FlatMemory} (h : Represents s m)
    (va : UInt32) (value : UInt8) :
    Represents (store s va value) (Function.update m va value) := by
  obtain ⟨frame, hpa, hf, hs⟩ := h.translate va
  rw [store_eq, hpa]
  exact hs.write hf value

theorem simulates_flatStep : Simulates Represents step flatStep := by
  intro s m op h
  cases op with
  | load va =>
      obtain ⟨hv, hs⟩ := h.load va
      exact ⟨congrArg some hv, hs⟩
  | store va value => exact ⟨rfl, h.store va value⟩

theorem final_step_eq_run (s : State) (ops : List Op) :
    final step s ops = some (run s ops) := by
  induction ops generalizing s with
  | nil => rfl
  | cons op ops ih => cases op <;> exact ih _

/-- Every reachable state stores the flat memory of the commands so far. -/
theorem represents_run (ops : List Op) :
    Represents (run initial ops) (lastStored ops) := by
  have h := simulates_flatStep.final ops initial (fun _ => 0) represents_initial
  rw [final_step_eq_run, final_flatStep] at h
  exact h

/-- **Paging is transparent**: a run answers exactly as a flat byte memory
does, and a load after any commands reads the last store to its address. -/
theorem paging_refines_flatMemory (ops : List Op) :
    outputs step initial ops = outputs flatStep (fun _ => 0) ops ∧
      ∀ va, (load (run initial ops) va).1 = lastStored ops va :=
  ⟨simulates_flatStep.outputs_eq ops initial _ represents_initial,
    fun va => ((represents_run ops).load va).1⟩

end OsInParts.Paging
