import Mathlib.Logic.Relation
import Coursework.Nachos.VirtualMemory

/-!
# What the paging code can do to the page tables

The used bits, the pins and the position of the clock hand decide which page goes, but
no property of the page tables depends on them. `View` is the kernel state without
them, and `Micro` lists every change of the view that the paging code makes, with the
facts that hold where the code makes it. `Phase` says how far a page fault has come,
since a frame changes hands in several changes, with file I/O between them.

An operation of the kernel is a chain of such changes (`Spec/FrameTable.lean`), so an
invariant is proved once for each constructor of `Micro`.
-/

namespace Nachos

/-- A translation entry without its used bit. -/
def TranslationEntry.forget (e : TranslationEntry) : TranslationEntry := { e with used := false }

@[simp] theorem TranslationEntry.forget_vpn (e : TranslationEntry) : e.forget.vpn = e.vpn := rfl
@[simp] theorem TranslationEntry.forget_ppn (e : TranslationEntry) : e.forget.ppn = e.ppn := rfl
@[simp] theorem TranslationEntry.forget_valid (e : TranslationEntry) :
    e.forget.valid = e.valid := rfl
@[simp] theorem TranslationEntry.forget_dirty (e : TranslationEntry) :
    e.forget.dirty = e.dirty := rfl

/-- Events that say something about pins only. -/
def Event.isPin : Event → Bool
  | .pin .. => true
  | .claim .. => true
  | _ => false

/-- The kernel state without used bits, pins and the clock hand. The owner of an assigned
    frame is the process reference and the page number of its bucket. -/
structure View where
  numPhysPages : Nat
  memory : Nat → UInt8
  tlb : Nat → TranslationEntry
  frame : Nat → Option (Option Nat × Nat)
  swapFile : HostFile
  numSwapPages : Nat
  freeSwap : List Nat
  numPages : Nat → Nat
  numCoffPages : Nat → Nat
  entry : Nat → Nat → TranslationEntry
  coffMap : Nat → Nat → PtBucket
  live : Nat → Bool
  numProcesses : Nat
  current : Option Nat
  trace : List Event

/-- The owner recorded in a bucket of the inverted page table. -/
def InvertedBucket.owner (b : InvertedBucket) : Option (Option Nat × Nat) :=
  if b.assigned then some (b.process, b.tEntry.vpn) else none

/-- The view of a kernel state. -/
def Kernel.view (k : Kernel) : View where
  numPhysPages := k.numPhysPages
  memory := k.memory
  tlb := fun i => (k.tlb i).forget
  frame := fun f => (k.invertedPageTable f).owner
  swapFile := k.swapFile
  numSwapPages := k.numSwapPages
  freeSwap := k.freeSwap
  numPages := fun p => (k.process p).numPages
  numCoffPages := fun p => (k.process p).numCoffPages
  entry := fun p v => (k.pte p v).forget
  coffMap := fun p => (k.process p).coffMap
  live := fun p => (k.process p).live
  numProcesses := k.numProcesses
  current := k.current
  trace := k.trace

namespace View

/-- Overwrite one page table entry. -/
def setEntry (m : View) (p v : Nat) (e : TranslationEntry) : View :=
  { m with entry := fun p' v' => if p' = p ∧ v' = v then e else m.entry p' v' }

/-- Overwrite the owner of a frame. -/
def setOwner (m : View) (f : Nat) (o : Option (Option Nat × Nat)) : View :=
  { m with frame := Function.update m.frame f o }

/-- Overwrite one TLB entry. -/
def setTlb (m : View) (i : Nat) (e : TranslationEntry) : View :=
  { m with tlb := Function.update m.tlb i e }

/-- Record an event. -/
def emit (m : View) (e : Event) : View := { m with trace := e :: m.trace }

/-- `Kernel.inTLB` on views. -/
def inTLB (m : View) (p v : Nat) : Bool :=
  decide (m.current = some p) &&
    (List.range tlbSize).any fun i => (m.tlb i).valid && (m.tlb i).vpn == v

theorem inTLB_eq_true {m : View} {p v : Nat} :
    m.inTLB p v = true ↔
      m.current = some p ∧ ∃ i, i < tlbSize ∧ (m.tlb i).valid = true ∧ (m.tlb i).vpn = v := by
  simp [inTLB]

theorem inTLB_eq_false {m : View} {p v : Nat} :
    m.inTLB p v = false ↔
      ∀ i, i < tlbSize → m.current = some p → (m.tlb i).valid = true → (m.tlb i).vpn ≠ v := by
  rw [← Bool.not_eq_true, inTLB_eq_true]
  grind

end View

/-- How far the kernel has come in giving a frame to a page, or in an exit. -/
inductive Phase where
  /-- No fault is being handled. -/
  | quiet
  /-- Page `w` of `q` is being written from frame `f` to slot `spn`. -/
  | saving (q w f spn : Nat) (written : Bool)
  /-- No page is mapped to frame `f` any more. -/
  | vacant (f : Nat)
  /-- Frame `f` is assigned to page `v` of `p`, which has a copy on swap if `onSwap`. -/
  | filling (f p v : Nat) (onSwap : Bool)
  /-- Process `p` has given up its frames and still runs. -/
  | dying (p : Nat)
  deriving DecidableEq

/-- The tables of a process that has just been loaded. -/
structure VMProcess.Fresh (child : VMProcess) : Prop where
  live : child.live = true
  index : ∀ v, (child.pageTable v).vpn = v
  invalid : ∀ v, (child.pageTable v).valid = false
  clean : ∀ v, (child.pageTable v).dirty = false
  coff : ∀ v, v < child.numCoffPages → ∃ s, (child.coffMap v).coffSection = some s ∧
    0 ≤ (child.coffMap v).sectionPage ∧ (child.coffMap v).sectionPage < s.numPages

namespace View

/-- A new process with the given tables. -/
def spawn (m : View) (child : VMProcess) : View :=
  { m with
    numPages := Function.update m.numPages m.numProcesses child.numPages
    numCoffPages := Function.update m.numCoffPages m.numProcesses child.numCoffPages
    entry := Function.update m.entry m.numProcesses fun v => (child.pageTable v).forget
    coffMap := Function.update m.coffMap m.numProcesses child.coffMap
    live := Function.update m.live m.numProcesses child.live
    numProcesses := m.numProcesses + 1 }

/-- Process `p` gives up the frames its valid entries name, and is no longer live. -/
def kill (m : View) (p : Nat) : View :=
  { m with
    frame := fun f =>
      if ∃ v < m.numPages p, (m.entry p v).valid = true ∧ (m.entry p v).ppn.toNat = f
      then none else m.frame f
    live := Function.update m.live p false }

end View

/-- The changes of the view. The comments name the code that makes them. -/
inductive Micro : Phase → View → Phase → View → Prop where
  /-- `verifyVaddr` and the clock note what they see of the pins. -/
  | note {ph : Phase} {m : View} (e : Event) (he : e.isPin = true) : Micro ph m ph (m.emit e)
  /-- `saveState` on a clean TLB entry. -/
  | saveClean {ph : Phase} {m : View} {i : Nat} (hv : (m.tlb i).valid = true)
      (hd : (m.tlb i).dirty = false) :
      Micro ph m ph (m.setTlb i { m.tlb i with valid := false })
  /-- `saveState` on a dirty TLB entry. -/
  | saveDirty {ph : Phase} {m : View} {p i : Nat} (before : TranslationEntry)
      (hcur : m.current = some p) (hv : (m.tlb i).valid = true) (hd : (m.tlb i).dirty = true)
      (hb : before.forget = m.entry p (m.tlb i).vpn) (hn : (m.tlb i).vpn < m.numPages p) :
      Micro ph m ph (((m.emit (.markDirty p (m.tlb i).vpn before)).setEntry p (m.tlb i).vpn
        { m.entry p (m.tlb i).vpn with dirty := true }).setTlb i { m.tlb i with valid := false })
  /-- `addToSwap` extends the swap file. -/
  | newSlot {m : View} {q w f : Nat} (hlive : m.live q = true) (hw : w < m.numPages q)
      (hv : (m.entry q w).valid = true) (hd : (m.entry q w).dirty = true)
      (hp : (m.entry q w).ppn = f) (hfree : m.freeSwap = []) :
      Micro .quiet m (.saving q w f m.numSwapPages false)
        { m with numSwapPages := m.numSwapPages + 1 }
  /-- `addToSwap` takes a free slot. -/
  | reuseSlot {m : View} {q w f spn : Nat} (hlive : m.live q = true) (hw : w < m.numPages q)
      (hv : (m.entry q w).valid = true) (hd : (m.entry q w).dirty = true)
      (hp : (m.entry q w).ppn = f) (hfree : spn ∈ m.freeSwap) :
      Micro .quiet m (.saving q w f spn false) { m with freeSwap := m.freeSwap.erase spn }
  /-- `addToSwap` writes the page. -/
  | writeSlot {m : View} {q w f spn : Nat} :
      Micro (.saving q w f spn false) m (.saving q w f spn true)
        { m with swapFile := m.swapFile.write (wrap32 ((spn : Int) * pageSize)) pageSize
                  (fun i => m.memory (frameAddr f i)) }
  /-- `savePage` records the slot and gives up the mapping. -/
  | dropSaved {m : View} {q w f spn : Nat} :
      Micro (.saving q w f spn true) m (.vacant f)
        ((m.setEntry q w { m.entry q w with ppn := spn, valid := false }).emit
          (.updateTLB q w (m.inTLB q w)))
  /-- `savePage` gives up the mapping of a page it takes for unmodified. -/
  | dropClean {m : View} {q w f : Nat} (hlive : m.live q = true) (hw : w < m.numPages q)
      (hv : (m.entry q w).valid = true) (hd : (m.entry q w).dirty = false)
      (hp : (m.entry q w).ppn = f) :
      Micro .quiet m (.vacant f)
        (((m.emit (.dropped q w fun i => m.memory (frameAddr f i))).setEntry q w
          { m.entry q w with valid := false }).emit (.updateTLB q w (m.inTLB q w)))
  /-- `assignPage` on a frame that no page has. -/
  | claimFree {m : View} {f p v : Nat} (hf : f < m.numPhysPages) (hfree : m.frame f = none)
      (hlive : m.live p = true) (hn : v < m.numPages p) (hv : (m.entry p v).valid = false) :
      Micro .quiet m (.filling f p v (m.entry p v).dirty) (m.setOwner f (some (some p, v)))
  /-- `assignPage` on a frame just evicted. -/
  | claimVacant {m : View} {f p v : Nat} (hlive : m.live p = true) (hn : v < m.numPages p)
      (hv : (m.entry p v).valid = false) :
      Micro (.vacant f) m (.filling f p v (m.entry p v).dirty) (m.setOwner f (some (some p, v)))
  /-- `initializePage` reads the page from swap and frees the slot. -/
  | fillSwap {m : View} {f p v : Nat} :
      Micro (.filling f p v true) m .quiet
        { m.setEntry p v { m.entry p v with ppn := f, valid := true } with
          memory := m.swapFile.read (wrap32 ((m.entry p v).ppn * pageSize)) pageSize m.memory
            (frameAddr f 0)
          freeSwap := (m.entry p v).ppn.toNat :: m.freeSwap }
  /-- `initializePage` reads the page from its COFF section. -/
  | fillCoff {m : View} {f p v : Nat} {s : CoffSection} (hc : v < m.numCoffPages p)
      (hs : (m.coffMap p v).coffSection = some s) :
      Micro (.filling f p v false) m .quiet
        { m.setEntry p v { m.entry p v with ppn := f, valid := true } with
          memory := blit m.memory (frameAddr f 0) pageSize
            (s.pageByte (m.coffMap p v).sectionPage.toNat) }
  /-- `initializePage` zero-fills the page. -/
  | fillZero {m : View} {f p v : Nat} {memory : Nat → UInt8} (hc : ¬ v < m.numCoffPages p)
      (hm : memory = blit m.memory (frameAddr f 0) (pageSize - 1) fun _ => 0) :
      Micro (.filling f p v false) m .quiet
        { (m.emit (.zeroed p v fun i => memory (frameAddr f i))).setEntry p v
            { m.entry p v with ppn := f, valid := true } with memory := memory }
  /-- `addToTLB` finds an invalid entry. -/
  | addTlb {m : View} {i p v : Nat} (hcur : m.current = some p) (hn : v < m.numPages p)
      (hv : (m.entry p v).valid = true) (hi : i < tlbSize) (hold : (m.tlb i).valid = false) :
      Micro .quiet m .quiet (m.setTlb i (m.entry p v))
  /-- `addToTLB` overwrites a valid entry. -/
  | replaceTlb {m : View} {i p v : Nat} (old : TranslationEntry) (hcur : m.current = some p)
      (hn : v < m.numPages p) (hv : (m.entry p v).valid = true) (hi : i < tlbSize)
      (hb : old.forget = m.tlb i) (hold : (m.tlb i).valid = true) :
      Micro .quiet m .quiet
        ((m.emit (.replaced old (m.entry p old.vpn).dirty)).setTlb i (m.entry p v))
  /-- A user load reads through a TLB entry. -/
  | userLoad {m : View} {i p f off n : Nat} (hcur : m.current = some p)
      (hv : (m.tlb i).valid = true) (hp : (m.tlb i).ppn = f) (hoff : off + n ≤ pageSize) :
      Micro .quiet m .quiet (m.emit (.read p ((m.tlb i).vpn * pageSize + off)
        ((List.range n).map fun j => m.memory (frameAddr f off + j))))
  /-- A user store writes through a TLB entry and sets the dirty bit of that entry. -/
  | userStore {m : View} {i p f off : Nat} {bytes : List UInt8} (hcur : m.current = some p)
      (hv : (m.tlb i).valid = true) (hp : (m.tlb i).ppn = f) (hoff : off + bytes.length ≤ pageSize) :
      Micro .quiet m .quiet
        { (m.emit (.wrote p ((m.tlb i).vpn * pageSize + off) bytes)).setTlb i
            { m.tlb i with dirty := true } with
          memory := blit m.memory (frameAddr f off) bytes.length fun j => bytes.getD j 0 }
  /-- `verifyVaddr` for a write sets the dirty bit of the page table entry. -/
  | touch {m : View} {p v : Nat} (hlive : m.live p = true) (hn : v < m.numPages p)
      (hv : (m.entry p v).valid = true) :
      Micro .quiet m .quiet (m.setEntry p v { m.entry p v with dirty := true })
  /-- A kernel copy reads from the frame of a valid entry. -/
  | kernelRead {m : View} {p v f off n : Nat} (hlive : m.live p = true) (hn : v < m.numPages p)
      (hv : (m.entry p v).valid = true) (hp : (m.entry p v).ppn = f) (hoff : off + n ≤ pageSize) :
      Micro .quiet m .quiet (m.emit (.read p (v * pageSize + off)
        ((List.range n).map fun j => m.memory (frameAddr f off + j))))
  /-- A kernel copy writes to the frame of a valid entry, after `verifyVaddr` marked it. -/
  | kernelWrite {m : View} {p v f off : Nat} {bytes : List UInt8} (hlive : m.live p = true)
      (hn : v < m.numPages p) (hv : (m.entry p v).valid = true) (hd : (m.entry p v).dirty = true)
      (hp : (m.entry p v).ppn = f) (hoff : off + bytes.length ≤ pageSize) :
      Micro .quiet m .quiet
        { m.emit (.wrote p (v * pageSize + off) bytes) with
          memory := blit m.memory (frameAddr f off) bytes.length fun j => bytes.getD j 0 }
  /-- `load` makes a new process. -/
  | spawn {m : View} {child : VMProcess} (hc : child.Fresh) : Micro .quiet m .quiet (m.spawn child)
  /-- `unloadSections` of the running process. -/
  | kill {m : View} {p : Nat} (hlive : m.live p = true) : Micro .quiet m (.dying p) (m.kill p)
  /-- The dead process is switched out for good. -/
  | leave {m : View} {p : Nat} (htlb : ∀ i, (m.tlb i).valid = false) :
      Micro (.dying p) m .quiet { m with current := none }
  /-- Another thread gets the processor, after the old one was saved. -/
  | switchTo {m : View} {next : Option Nat} (htlb : ∀ i, (m.tlb i).valid = false)
      (hlive : ∀ p, next = some p → m.live p = true) :
      Micro .quiet m .quiet { m with current := next }

/-- History is only added to. -/
theorem Micro.trace_suffix {ph ph' : Phase} {m m' : View} (h : Micro ph m ph' m') :
    m.trace <:+ m'.trace := by
  cases h with
  | note => exact List.suffix_cons _ _
  | saveDirty => exact List.suffix_cons _ _
  | dropSaved => exact List.suffix_cons _ _
  | dropClean => exact (List.suffix_cons _ _).trans (List.suffix_cons _ _)
  | fillZero => exact List.suffix_cons _ _
  | replaceTlb => exact List.suffix_cons _ _
  | userLoad => exact List.suffix_cons _ _
  | userStore => exact List.suffix_cons _ _
  | kernelRead => exact List.suffix_cons _ _
  | kernelWrite => exact List.suffix_cons _ _
  | _ => exact List.suffix_rfl

/-- A sequence of changes. -/
def Chain : Phase × View → Phase × View → Prop :=
  Relation.ReflTransGen fun s s' => Micro s.1 s.2 s'.1 s'.2

namespace Chain

theorem refl {s : Phase × View} : Chain s s := Relation.ReflTransGen.refl

theorem trans {s₁ s₂ s₃ : Phase × View} (h : Chain s₁ s₂) (h' : Chain s₂ s₃) : Chain s₁ s₃ :=
  Relation.ReflTransGen.trans h h'

theorem single {ph ph' : Phase} {m m' : View} (h : Micro ph m ph' m') :
    Chain (ph, m) (ph', m') :=
  Relation.ReflTransGen.single h

/-- What every change preserves, a chain preserves. -/
theorem invariant {I : Phase → View → Prop}
    (hstep : ∀ {ph m ph' m'}, Micro ph m ph' m' → I ph m → I ph' m')
    {s s' : Phase × View} (h : Chain s s') (hs : I s.1 s.2) : I s'.1 s'.2 := by
  induction h with
  | refl => exact hs
  | tail _ hst ih => exact hstep hst ih

end Chain

/-! ## The view of the kernel's own updates -/

namespace Kernel

@[simp] theorem view_emit (k : Kernel) (e : Event) : (k.emit e).view = k.view.emit e := rfl

@[simp] theorem view_setPTE (k : Kernel) (p v : Nat) (e : TranslationEntry) :
    (k.setPTE p v e).view = k.view.setEntry p v e.forget := by
  simp only [view, setPTE, View.setEntry, pte, View.mk.injEq, true_and, and_true]
  refine ⟨?_, ?_, ?_, ?_, ?_⟩ <;> funext p' <;> by_cases h : p' = p <;>
    simp [Function.update_apply, h]
  funext v'
  by_cases hv : v' = v <;> simp [hv]

@[simp] theorem view_setFrame (k : Kernel) (f : Nat) (b : InvertedBucket) :
    (k.setFrame f b).view = k.view.setOwner f b.owner := by
  simp only [view, setFrame, pte, View.setOwner, View.mk.injEq, true_and, and_true]
  funext g
  by_cases h : g = f <;> simp [h]

@[simp] theorem view_writeTLBEntry (k : Kernel) (i : Nat) (e : TranslationEntry) :
    (k.writeTLBEntry i e).view = k.view.setTlb i e.forget := by
  simp only [view, writeTLBEntry, pte, View.setTlb, View.mk.injEq, true_and, and_true]
  funext j
  by_cases h : j = i <;> simp [h]

/-- An entry that keeps all but its used bit is no change of the view. -/
theorem view_setPTE_used (k : Kernel) (p v : Nat) (e : TranslationEntry)
    (he : e.forget = (k.pte p v).forget) : (k.setPTE p v e).view = k.view := by
  rw [view_setPTE, he]
  simp only [View.setEntry, view, View.mk.injEq, true_and, and_true]
  funext p' v'
  by_cases h : p' = p ∧ v' = v
  · simp [h.1, h.2]
  · simp [h]

/-- A bucket that keeps its owner is no change of the view. -/
theorem view_setFrame_owner (k : Kernel) (f : Nat) (b : InvertedBucket)
    (hb : b.owner = (k.invertedPageTable f).owner) : (k.setFrame f b).view = k.view := by
  rw [view_setFrame, hb]
  simp only [View.setOwner, view, View.mk.injEq, true_and, and_true]
  exact Function.update_eq_self f fun g => (k.invertedPageTable g).owner

/-! ## The clock -/

/-- What the hand keeps in each of the three cases for the frame under it, the clock keeps. -/
theorem clockLoop_rule {R : Kernel → Kernel → Prop} (htrans : ∀ {a b c}, R a b → R b c → R a c)
    (hclaim : ∀ k c pinned, R k ({ k with currentPage := c + 1 }.emit (.claim c pinned)))
    (hvictim : ∀ k c, R k { k with currentPage := c + 1 })
    (hpass : ∀ {k k' c}, k.passOver c = .ok k' → R k k') {fuel : Nat} :
    ∀ {total : Nat} {notPinned : Bool} {k k' : Kernel} {found : Option Nat},
    clockLoop fuel total notPinned k = .ok (found, k') → R k k' := by
  induction fuel with
  | zero =>
    intro total notPinned k k' found h
    cases h
  | succ fuel ih =>
    intro total notPinned k k' found h
    unfold clockLoop at h
    dsimp only at h
    split at h
    · cases h
      exact hclaim ..
    split at h
    · cases h
      exact hvictim ..
    · cases hp : k.passOver (k.currentPage % k.numPhysPages) with
      | error e =>
        rw [hp] at h
        cases h
      | ok k₁ =>
        rw [hp] at h
        simp only [bind, Except.bind] at h
        split at h
        · cases h
          exact hpass hp
        · exact htrans (hpass hp) (ih h)

end Kernel

end Nachos
