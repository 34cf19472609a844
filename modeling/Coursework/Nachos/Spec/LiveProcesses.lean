import Coursework.ForStd.Except
import Coursework.Nachos.Spec.PagingView

/-!
# Which operations make and end processes

The paging code moves pages between processes and never makes or ends one: `census`
is the same before and after each of its functions. Processes come with `load` and go
with `handleExit`, which a run reaches by an `exit` or by an exception of a user access
other than a TLB miss (`ending`).
-/

namespace Nachos

namespace Kernel

/-- The processes that are live, and the number of the next one. -/
def census (k : Kernel) : (Nat → Bool) × Nat := (fun p => (k.process p).live, k.numProcesses)

/-- The process that an operation would end. -/
def ending (k : Kernel) : Op → Option Nat
  | .exit => k.current
  | .userLoad vaddr size _ =>
    match k.translate vaddr size false with
    | .ok _ => none
    | .error .tlbMiss => none
    | .error _ => k.current
  | .userStore vaddr bytes _ =>
    match k.translate vaddr bytes.length true with
    | .ok _ => none
    | .error .tlbMiss => none
    | .error _ => k.current
  | _ => none

variable {k k' : Kernel}

/-- An assignment to a page table entry makes and ends no process. -/
theorem census_setPTE (k : Kernel) (p v : Nat) (e : TranslationEntry) :
    (k.setPTE p v e).census = k.census := by
  simp only [census, setPTE, Prod.mk.injEq, and_true]
  funext q
  by_cases h : q = p <;> simp [h]

/-- A change of a page table entry that is there. -/
theorem census_modifyPTE {p v : Nat} {f : TranslationEntry → TranslationEntry}
    (h : k.modifyPTE p v f = .ok k') : k'.census = k.census := by
  unfold modifyPTE at h
  split at h
  · rw [← Except.ok.inj h]
    exact census_setPTE k p v _
  · cases h

/-- A change of the inverted page table. -/
theorem census_modifyFrame {ppn : Int} {f : InvertedBucket → InvertedBucket}
    (h : k.modifyFrame ppn f = .ok k') : k'.census = k.census := by
  unfold modifyFrame at h
  split at h
  · rw [← Except.ok.inj h]
    rfl
  · cases h

/-- A frame is given up. -/
theorem census_unpin {ppn : Int} (h : k.unpin ppn = .ok k') : k'.census = k.census :=
  census_modifyFrame h

/-! ## The TLB -/

/-- The dirty bit of a TLB entry is copied to the page table. -/
theorem census_copyDirty {p : Nat} {entry : TranslationEntry} (h : copyDirty p entry k = .ok k') :
    k'.census = k.census := by
  unfold copyDirty at h
  split at h
  · exact (census_modifyPTE h).trans rfl
  · rw [← Except.ok.inj h]

/-- The used bit of a TLB entry is copied to the page table. -/
theorem census_copyUsed {p : Nat} {entry : TranslationEntry} (h : copyUsed p entry k = .ok k') :
    k'.census = k.census := by
  unfold copyUsed at h
  split at h
  · obtain ⟨k₁, h₁, h₂⟩ := Except.bind_eq_ok.mp h
    exact (census_modifyFrame h₂).trans (census_modifyPTE h₁)
  · rw [← Except.ok.inj h]

/-- One iteration of `saveState` clears a TLB entry. -/
theorem census_saveEntry {p i : Nat} (h : saveEntry p k i = .ok k') : k'.census = k.census := by
  unfold saveEntry at h
  dsimp only at h
  split at h
  · obtain ⟨k₁, h₁, h⟩ := Except.bind_eq_ok.mp h
    obtain ⟨k₂, h₂, h⟩ := Except.bind_eq_ok.mp h
    rw [← Except.ok.inj h]
    exact (census_copyUsed h₂).trans (census_copyDirty h₁)
  · rw [← Except.ok.inj h]

/-- A context switch saves the TLB of the process that leaves the processor. -/
theorem census_saveState {p : Nat} (h : k.saveState p = .ok k') : k'.census = k.census := by
  apply Except.foldlM_invariant (R := fun k k' => k'.census = k.census) _ _ _ h
  · exact fun _ => rfl
  · exact fun h₁ h₂ => h₂.trans h₁
  · exact census_saveEntry

/-- The running process is switched out, if there is one. -/
theorem census_switchOut (h : k.switchOut = .ok k') : k'.census = k.census := by
  unfold switchOut at h
  split at h
  · exact census_saveState h
  · rw [← Except.ok.inj h]

/-- File I/O, which may give up the processor. -/
theorem census_delay (h : k.delay = .ok k') : k'.census = k.census := by
  unfold delay at h
  split at h
  · exact census_switchOut h
  · rw [← Except.ok.inj h]

/-! ## Eviction and page faults -/

/-- The part of `addToSwap` before the file is written: a slot is chosen, the frame is pinned. -/
theorem census_addToSwapBegin {ppn : Int} {spn : Nat}
    (h : k.addToSwapBegin ppn = .ok (spn, k')) : k'.census = k.census := by
  obtain ⟨k₁, h₁, h⟩ := Except.bind_eq_ok.mp h
  have hframe := census_modifyFrame h₁
  cases h
  rw [hframe]
  split <;> rfl

/-- A frame is written to the swap file. -/
theorem census_swapWrite (k : Kernel) (spn : Int) (ppn : Nat) :
    (k.swapWrite spn ppn).census = k.census := by
  simp only [swapWrite, census]

/-- A page is saved; other processes may run meanwhile, but none begins or ends. -/
theorem census_addToSwap {ppn : Int} {spn : Nat} (h : k.addToSwap ppn = .ok (spn, k')) :
    k'.census = k.census := by
  unfold addToSwap at h
  obtain ⟨⟨slot, k₁⟩, h₁, h⟩ := Except.bind_eq_ok.mp h
  obtain ⟨k₂, h₂, h⟩ := Except.bind_eq_ok.mp h
  obtain ⟨k₃, h₃, h⟩ := Except.bind_eq_ok.mp h
  have hend := census_unpin h₃
  rw [census_swapWrite] at hend
  cases h
  exact hend.trans ((census_delay h₂).trans (census_addToSwapBegin h₁))

/-- A page comes back from swap and its slot is free again. -/
theorem census_loadFromSwap {spn : Int} {ppn : Nat} (h : k.loadFromSwap spn ppn = .ok k') :
    k'.census = k.census := by
  obtain ⟨k₁, h₁, h⟩ := Except.bind_eq_ok.mp h
  obtain ⟨k₂, h₂, h⟩ := Except.bind_eq_ok.mp h
  obtain ⟨k₃, h₃, h⟩ := Except.bind_eq_ok.mp h
  cases h
  show k₃.census = k.census
  exact (census_unpin h₃).trans ((census_delay h₂).trans (census_modifyFrame h₁))

/-- The page table entry of an evicted page is made invalid. -/
theorem census_invalidate {p v : Nat} (h : k.invalidate p v = .ok k') : k'.census = k.census := by
  obtain ⟨k₁, h₁, h⟩ := Except.bind_eq_ok.mp h
  cases h
  show k₁.census = k.census
  exact census_modifyPTE h₁

/-- A page is evicted, with or without a copy on swap. -/
theorem census_savePage {p v : Nat} (h : k.savePage p v = .ok k') : k'.census = k.census := by
  unfold savePage at h
  dsimp only at h
  split at h
  · cases h
  split at h
  · obtain ⟨⟨slot, k₁⟩, h₁, h⟩ := Except.bind_eq_ok.mp h
    obtain ⟨k₂, h₂, h⟩ := Except.bind_eq_ok.mp h
    exact (census_invalidate h).trans ((census_modifyPTE h₂).trans (census_addToSwap h₁))
  · exact (census_invalidate h).trans rfl

/-- The clock passes over a frame and clears its used bit. -/
theorem census_passOver {c : Nat} (h : k.passOver c = .ok k') : k'.census = k.census := by
  unfold passOver at h
  dsimp only at h
  split at h
  · cases h
  · obtain ⟨k₁, h₁, h⟩ := Except.bind_eq_ok.mp h
    cases h
    show k₁.census = k.census
    exact (census_modifyPTE h₁).trans rfl

/-- The clock looks for a victim: its passes change only bits of page table entries. -/
theorem census_clockLoop {fuel total : Nat} {notPinned : Bool} {found : Option Nat}
    (h : clockLoop fuel total notPinned k = .ok (found, k')) : k'.census = k.census :=
  clockLoop_rule (R := fun a b => b.census = a.census) (fun hab hbc => hbc.trans hab)
    (fun _ _ _ => rfl) (fun _ _ => rfl) census_passOver h

/-- The victim is saved and its frame goes to the new page. -/
theorem census_takePage {f p v : Nat} (h : k.takePage f p v = .ok k') : k'.census = k.census := by
  unfold takePage at h
  dsimp only at h
  split at h
  · obtain ⟨k₁, h₁, h⟩ := Except.bind_eq_ok.mp h
    cases h
    show k₁.census = k.census
    unfold evictPage at h₁
    dsimp only at h₁
    split at h₁
    · cases h₁
    · exact census_savePage h₁
  · cases h
    rfl

/-- A frame is found for a page. -/
theorem census_getAvailablePage {p v f : Nat} (h : k.getAvailablePage p v = .ok (f, k')) :
    k'.census = k.census := by
  obtain ⟨⟨found, k₁⟩, h₁, h⟩ := Except.bind_eq_ok.mp h
  have hclock : k₁.census = k.census := census_clockLoop h₁
  cases found with
  | none => cases h
  | some g =>
    obtain ⟨k₂, h₂, h⟩ := Except.bind_eq_ok.mp h
    cases h
    exact (census_takePage h₂).trans hclock

/-- The new page is filled: from swap, from the executable or with zeros. -/
theorem census_fillPage {ppn p v : Nat} (h : k.fillPage ppn p v = .ok k') :
    k'.census = k.census := by
  unfold fillPage at h
  dsimp only at h
  split at h
  · exact census_loadFromSwap h
  split at h
  · split at h
    · cases h
    · unfold loadPage at h
      split at h
      · dsimp only at h
        split at h
        · obtain ⟨k₁, h₁, h⟩ := Except.bind_eq_ok.mp h
          cases h
          show k₁.census = k.census
          exact census_delay h₁
        · cases h
          rfl
      · cases h
  · cases h
    rfl

/-- A page fault of a process is a frame and its bytes. -/
theorem census_pageFault {p v : Nat} (h : k.pageFault p v = .ok k') : k'.census = k.census := by
  obtain ⟨⟨f, k₁⟩, h₁, h⟩ := Except.bind_eq_ok.mp h
  obtain ⟨k₂, h₂, h⟩ := Except.bind_eq_ok.mp h
  exact (census_modifyPTE h).trans ((census_fillPage h₂).trans (census_getAvailablePage h₁))

/-- An entry of the TLB is overwritten. -/
theorem census_addToTLB (k : Kernel) (p v : Nat) (random : Fin tlbSize) :
    (k.addToTLB p v random).census = k.census := by
  unfold addToTLB
  dsimp only
  split <;> rfl

/-- A TLB miss is answered by a page fault, if the page is not mapped, and a TLB entry. -/
theorem census_handleTLBMiss {p : Nat} {vAddr : Int} {random : Fin tlbSize}
    (h : k.handleTLBMiss p vAddr random = .ok k') : k'.census = k.census := by
  unfold handleTLBMiss at h
  dsimp only at h
  split at h
  · split at h
    · cases h
      exact census_addToTLB _ _ _ _
    · obtain ⟨k₁, h₁, h⟩ := Except.bind_eq_ok.mp h
      cases h
      rw [census_addToTLB]
      exact census_pageFault h₁
  · cases h

/-! ## Kernel copies -/

/-- A page is pinned for a kernel copy, and marked dirty if it is written. -/
theorem census_pinPage {p v : Nat} {write : Bool} (h : pinPage p k v write = .ok k') :
    k'.census = k.census := by
  obtain ⟨k₁, h₁, h⟩ := Except.bind_eq_ok.mp h
  have hframe : k₁.census = k.census := (census_modifyFrame h₁).trans rfl
  split at h
  · exact (census_modifyPTE h).trans hframe
  · rw [← Except.ok.inj h]
    exact hframe

/-- `verifyVaddr` brings a page in and pins it. -/
theorem census_verifyVaddr {p v : Nat} {write verified : Bool}
    (h : verifyVaddr p k v write = .ok (verified, k')) : k'.census = k.census := by
  unfold verifyVaddr at h
  dsimp only at h
  split at h
  · cases h
    rfl
  split at h
  · have h : (pinPage p k v write >>= fun k => .ok (true, k)) = .ok (verified, k') := h
    obtain ⟨k₁, h₁, h⟩ := Except.bind_eq_ok.mp h
    cases h
    exact census_pinPage h₁
  · obtain ⟨k₁, h₁, h⟩ := Except.bind_eq_ok.mp h
    obtain ⟨k₂, h₂, h⟩ := Except.bind_eq_ok.mp h
    cases h
    exact (census_pinPage h₂).trans (census_pageFault h₁)

/-- `System.arraycopy` between a frame and the buffer. -/
theorem census_arraycopy {write : Bool} {p va n : Nat} {physicalAddr dataPos : Int}
    {data data' : List UInt8}
    (h : k.arraycopy write p va physicalAddr dataPos n data = .ok (k', data')) :
    k'.census = k.census := by
  unfold arraycopy at h
  dsimp only at h
  split at h
  · split at h
    · cases h
      rfl
    · cases h
      rfl
  · cases h

/-- The loop of a kernel copy, by induction on its iterations. -/
theorem census_copyLoop {write : Bool} {p : Nat} {vaddr offset : Int} {length fuel : Nat} :
    ∀ {byteNum n : Nat} {k : Kernel} {data data' : List UInt8},
    copyLoop (verifyVaddr p) (verifyClean p) write p vaddr offset length fuel byteNum k data =
      .ok (n, k', data') → k'.census = k.census := by
  induction fuel with
  | zero =>
    intro byteNum n k data data' h
    cases h
  | succ fuel ih =>
    intro byteNum n k data data' h
    unfold copyLoop at h
    dsimp only at h
    obtain ⟨⟨verified, k₁⟩, h₁, h⟩ := Except.bind_eq_ok.mp h
    have hverify := census_verifyVaddr h₁
    cases verified with
    | false =>
      cases h
      exact hverify
    | true =>
      obtain ⟨⟨k₂, data₂⟩, h₂, h⟩ := Except.bind_eq_ok.mp h
      obtain ⟨k₃, h₃, h⟩ := Except.bind_eq_ok.mp h
      have hcopy : k₃.census = k.census :=
        (census_unpin h₃).trans ((census_arraycopy h₂).trans hverify)
      dsimp only at h
      split at h
      · exact (ih h).trans hcopy
      · cases h
        exact hcopy

/-- A kernel copy changes pages of processes, not which processes there are. -/
theorem census_copyVirtualMemory {write : Bool} {p n : Nat} {vaddr offset length : Int}
    {data data' : List UInt8}
    (h : copyVirtualMemory (verifyVaddr p) (verifyClean p) write k p vaddr data offset length =
      .ok (n, k', data')) : k'.census = k.census := by
  unfold copyVirtualMemory at h
  split at h
  · cases h
    rfl
  split at h
  · cases h
    rfl
  · exact census_copyLoop h

/-! ## Operations -/

/-- A translation changes the TLB only. -/
theorem census_translate {vaddr : Int} {size paddr : Nat} {writing : Bool}
    (h : k.translate vaddr size writing = .ok (paddr, k')) : k'.census = k.census := by
  unfold translate at h
  dsimp only at h
  split at h
  · cases h
  split at h
  · cases h
  split at h
  · cases h
  split at h
  · cases h
  · cases h
    rfl

/-- A load ends with the exceptions of its translation. -/
theorem readMem_eq_error_iff {p : Nat} {vaddr : Int} {size : Nat} {e : MipsException} :
    k.readMem p vaddr size = .error e ↔ k.translate vaddr size false = .error e := by
  cases ht : k.translate vaddr size false with
  | ok r => simp [readMem, ht, bind, Except.bind]
  | error e' => simp [readMem, ht, bind, Except.bind]

/-- A store ends with the exceptions of its translation. -/
theorem writeMem_eq_error_iff {p : Nat} {vaddr : Int} {bytes : List UInt8} {e : MipsException} :
    k.writeMem p vaddr bytes = .error e ↔
      k.translate vaddr bytes.length true = .error e := by
  cases ht : k.translate vaddr bytes.length true with
  | ok r => simp [writeMem, ht, bind, Except.bind]
  | error e' => simp [writeMem, ht, bind, Except.bind]

/-- A user access that ends no process makes none either. -/
theorem census_userAccess {vaddr : Int} {size : Nat} {random : Fin tlbSize} (w : Bool)
    {access : Nat → Except MipsException Kernel}
    (haccess : ∀ p k', access p = .ok k' → k'.census = k.census)
    (htrap : ∀ p e, access p = .error e → k.translate vaddr size w = .error e)
    (hend : ∀ e, k.translate vaddr size w = .error e → e ≠ .tlbMiss → k.current = none)
    (h : k.userAccess vaddr size random access = .ok k') : k'.census = k.census := by
  unfold userAccess at h
  cases hcur : k.current with
  | none =>
    rw [hcur] at h
    cases h
    rfl
  | some p =>
    rw [hcur] at h
    dsimp only at h
    split at h
    · cases ha : access p with
      | ok k₁ =>
        rw [ha] at h
        cases h
        exact haccess p _ ha
      | error e =>
        rw [ha] at h
        by_cases hmiss : e = .tlbMiss
        · rw [hmiss] at h
          exact census_handleTLBMiss h
        · rw [hend e (htrap p e ha) hmiss] at hcur
          cases hcur
    · cases h

/-- A load changes the used bit of its TLB entry. -/
theorem census_readMem {p : Nat} {vaddr : Int} {size : Nat}
    (h : k.readMem p vaddr size = .ok k') : k'.census = k.census := by
  obtain ⟨⟨paddr, k₁⟩, h₁, h⟩ := Except.bind_eq_ok.mp h
  cases h
  show k₁.census = k.census
  exact census_translate h₁

/-- A store changes a frame and the bits of its TLB entry. -/
theorem census_writeMem {p : Nat} {vaddr : Int} {bytes : List UInt8}
    (h : k.writeMem p vaddr bytes = .ok k') : k'.census = k.census := by
  obtain ⟨⟨paddr, k₁⟩, h₁, h⟩ := Except.bind_eq_ok.mp h
  cases h
  show k₁.census = k.census
  exact census_translate h₁

/-- Only the end of a process and `load` change which processes there are. -/
theorem census_step {op : Op} (h : k.step op = .ok k') (hload : ∀ sections, op ≠ .load sections)
    (hend : k.ending op = none) : k'.census = k.census := by
  cases op with
  | load sections => exact absurd rfl (hload sections)
  | userLoad vaddr size random =>
    -- an access that fails other than by a miss would end the process, which `hend` excludes
    refine census_userAccess false (fun p k' => census_readMem)
      (fun p e => readMem_eq_error_iff.mp) ?_ h
    intro e ht hmiss
    simp only [ending, ht] at hend
    exact hend
  | userStore vaddr bytes random =>
    refine census_userAccess true (fun p k' => census_writeMem)
      (fun p e => writeMem_eq_error_iff.mp) ?_ h
    intro e ht hmiss
    simp only [ending, ht] at hend
    exact hend
  | kernelRead p vaddr data offset length =>
    simp only [step] at h
    split at h
    · obtain ⟨⟨n, k₁, data₁⟩, h₁, h⟩ := Except.bind_eq_ok.mp h
      cases h
      exact census_copyVirtualMemory h₁
    · cases h
      rfl
  | kernelWrite p vaddr data offset length =>
    simp only [step] at h
    split at h
    · obtain ⟨⟨n, k₁, data₁⟩, h₁, h⟩ := Except.bind_eq_ok.mp h
      cases h
      exact census_copyVirtualMemory h₁
    · cases h
      rfl
  | contextSwitch next =>
    simp only [step] at h
    split at h
    · obtain ⟨k₁, h₁, h⟩ := Except.bind_eq_ok.mp h
      cases h
      show k₁.census = k.census
      exact census_switchOut h₁
    · cases h
      rfl
  | exit =>
    have hcur : k.current = none := hend
    simp only [step, hcur] at h
    cases h
    rfl

/-- `handleExit` ends its process and no other. -/
theorem census_handleExit {p : Nat} (h : k.handleExit p = .ok k') :
    k'.census = (Function.update k.census.1 p false, k.census.2) := by
  unfold handleExit at h
  obtain ⟨k₁, h₁, h⟩ := Except.bind_eq_ok.mp h
  obtain ⟨k₂, h₂, h⟩ := Except.bind_eq_ok.mp h
  cases h
  have hunload : k₁.census = k.census := by
    apply Except.foldlM_invariant (R := fun k k' => k'.census = k.census) _ _ _ h₁
    · exact fun _ => rfl
    · exact fun h₁ h₂ => h₂.trans h₁
    · intro k i k' hi
      unfold unloadPage at hi
      split at hi
      · exact census_modifyFrame hi
      · rw [← Except.ok.inj hi]
  rw [← hunload]
  show k₂.census = _
  rw [census_switchOut h₂]
  simp only [census, Prod.mk.injEq, and_true]
  funext q
  by_cases hq : q = p <;> simp [hq]

/-- `load` makes at most the next process, and makes it live. -/
theorem census_load (k : Kernel) (sections : List CoffSection) :
    (k.load sections).census = k.census ∨
    (k.load sections).census = (Function.update k.census.1 k.census.2 true, k.census.2 + 1) := by
  unfold load
  cases coffPages 0 sections with
  | none => exact Or.inl rfl
  | some n =>
    refine Or.inr ?_
    simp only [census, Prod.mk.injEq, and_true]
    funext q
    by_cases hq : q = k.numProcesses <;> simp [hq, loadSections]

/-- A trap of a user access other than a TLB miss. -/
theorem handleExit_of_userAccess {vaddr : Int} {size : Nat} {random : Fin tlbSize} {p : Nat}
    {access : Nat → Except MipsException Kernel} {e : MipsException}
    (h : k.userAccess vaddr size random access = .ok k') (hcur : k.current = some p)
    (ha : access p = .error e) (hmiss : e ≠ .tlbMiss) : k.handleExit p = .ok k' := by
  simp only [userAccess, hcur] at h
  split at h
  · rw [ha] at h
    cases e with
    | tlbMiss => exact absurd rfl hmiss
    | addressError => exact h
    | readOnly => exact h
    | busError => exact h
  · cases h

/-- An operation ends the running process through `handleExit`. -/
theorem handleExit_of_ending {op : Op} {p : Nat} (h : k.step op = .ok k')
    (hend : k.ending op = some p) : k.current = some p ∧ k.handleExit p = .ok k' := by
  cases op with
  | exit =>
    have hcur : k.current = some p := hend
    simp only [step, hcur] at h
    exact ⟨hcur, h⟩
  | userLoad vaddr size random =>
    simp only [ending] at hend
    split at hend
    · cases hend
    · cases hend
    · next e hmiss ht =>
        exact ⟨hend, handleExit_of_userAccess h hend (readMem_eq_error_iff.mpr ht) hmiss⟩
  | userStore vaddr bytes random =>
    simp only [ending] at hend
    split at hend
    · cases hend
    · cases hend
    · next e hmiss ht =>
        exact ⟨hend, handleExit_of_userAccess h hend (writeMem_eq_error_iff.mpr ht) hmiss⟩
  -- the other operations never end a process
  | load sections => cases hend
  | kernelRead p vaddr data offset length => cases hend
  | kernelWrite p vaddr data offset length => cases hend
  | contextSwitch next => cases hend

end Kernel

end Nachos
