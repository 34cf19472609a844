import Coursework.Nachos.Spec.Arguments
import Coursework.Nachos.Spec.SystemCalls

/-!
# The methods of `UserProcess`

`userProcess` meets the contract of `Spec/SystemCalls.lean`: the pages of the processes and the
free pages are in different frames, and a copy or a load writes to the frames of one process.
-/

namespace Nachos

namespace UserProcess

open ProcessClass (Kept Safe Contract Admitted writeResult)

/-! ## What a copy and a load leave alone -/

/-- A physical address in none of these frames. -/
def Outside (pages : List Int) (a : Nat) : Prop := ∀ page ∈ pages, page.toNat ≠ a / pageSize

section Outside

variable {numPhysPages : Nat} {pageTable : List TranslationEntry} {a : Nat}

/-- A byte of a frame. -/
theorem frameAddr_div {f j : Nat} (hj : j < pageSize) : frameAddr f j / pageSize = f := by
  simp only [frameAddr, pageSize] at *
  omega

/-- A physical address in a frame of the page table. -/
theorem outside_iff : Outside (pageTable.map TranslationEntry.ppn) a ↔
    ∀ e ∈ pageTable, e.ppn.toNat ≠ a / pageSize := by
  simp [Outside]

/-- The loop of `writeVirtualMemory` writes to the frames of the page table. -/
theorem writeLoop_outside (hout : Outside (pageTable.map TranslationEntry.ppn) a)
    {vaddr offset : Int} {data : List UInt8} {length fuel : Nat} :
    ∀ {byteNum n : Nat} {memory memory' : Nat → UInt8},
    writeLoop numPhysPages pageTable vaddr offset data length fuel byteNum memory =
      .ok (n, memory') → memory' a = memory a := by
  induction fuel with
  | zero =>
    intro byteNum n memory memory' h
    cases h
  | succ fuel ih =>
    intro byteNum n memory memory' h
    unfold writeLoop at h
    dsimp only at h
    split at h
    · cases h
      rfl
    split at h
    · cases h
    rename_i entry hentry
    have hne := outside_iff.mp hout entry (List.mem_of_getElem? hentry)
    have hoff := offsetFromAddress_lt (vaddr + byteNum)
    split at h
    · rename_i hfits
      -- this round writes within the frame of one entry, and `a` is outside all of them
      have hsame : ∀ bytes, blit memory
          (entry.ppn * (pageSize : Int) + (offsetFromAddress (vaddr + byteNum) : Nat)).toNat
          (min (pageSize - offsetFromAddress (vaddr + byteNum)) (length - byteNum)) bytes a =
            memory a := by
        intro bytes
        apply blit_outside
        have hpos := hfits.1
        clear hfits h
        simp only [pageSize] at *
        omega
      split at h
      · rw [ih h, hsame]
      · cases h
        exact hsame _
    · cases h

theorem writeVirtualMemory_outside (hout : Outside (pageTable.map TranslationEntry.ppn) a)
    {vaddr offset length : Int} {data : List UInt8} {n : Nat} {memory memory' : Nat → UInt8}
    (h : writeVirtualMemory numPhysPages pageTable memory vaddr data offset length =
      .ok (n, memory')) : memory' a = memory a := by
  unfold writeVirtualMemory at h
  split at h
  · cases h
    rfl
  split at h
  · cases h
    rfl
  · exact writeLoop_outside hout h

theorem assertWritten_outside (hout : Outside (pageTable.map TranslationEntry.ppn) a) {vaddr : Nat}
    {data : List UInt8} {memory memory' : Nat → UInt8}
    (h : assertWritten numPhysPages pageTable memory vaddr data = .ok memory') :
    memory' a = memory a := by
  obtain ⟨⟨n, memory₁⟩, hwrite, h⟩ := Except.bind_eq_ok.mp h
  dsimp only at h
  split at h
  · cases h
    exact writeVirtualMemory_outside hout hwrite
  · cases h

theorem storeArguments_outside (hout : Outside (pageTable.map TranslationEntry.ppn) a)
    {args : List (List UInt8)} : ∀ {e s : Nat} {memory memory' : Nat → UInt8},
    storeArguments numPhysPages pageTable args e s memory = .ok memory' →
    memory' a = memory a := by
  induction args with
  | nil =>
    intro e s memory memory' h
    cases h
    rfl
  | cons arg rest ih =>
    intro e s memory memory' h
    obtain ⟨memory₁, h₁, h⟩ := Except.bind_eq_ok.mp h
    obtain ⟨memory₂, h₂, h⟩ := Except.bind_eq_ok.mp h
    obtain ⟨memory₃, h₃, h⟩ := Except.bind_eq_ok.mp h
    rw [ih h, assertWritten_outside hout h₃, assertWritten_outside hout h₂,
      assertWritten_outside hout h₁]

/-- Reading sections keeps the frames of a page table, and the memory outside them. -/
def SameOutside (state state' : List TranslationEntry × (Nat → UInt8)) : Prop :=
  state'.1.map TranslationEntry.ppn = state.1.map TranslationEntry.ppn ∧
    ∀ a, Outside (state.1.map TranslationEntry.ppn) a → state'.2 a = state.2 a

theorem SameOutside.refl (state : List TranslationEntry × (Nat → UInt8)) :
    SameOutside state state := ⟨rfl, fun _ _ => rfl⟩

theorem SameOutside.trans {state₁ state₂ state₃ : List TranslationEntry × (Nat → UInt8)}
    (h : SameOutside state₁ state₂) (h' : SameOutside state₂ state₃) :
    SameOutside state₁ state₃ := by
  refine ⟨h'.1.trans h.1, fun a ha => ?_⟩
  rw [← h.2 a ha]
  exact h'.2 a (h.1 ▸ ha)

theorem copyPage_outside {fileLength : Nat} {s : CoffSection} {i : Nat}
    {state state' : List TranslationEntry × (Nat → UInt8)}
    (h : copyPage numPhysPages fileLength s state i = .ok state') : SameOutside state state' := by
  unfold copyPage at h
  dsimp only at h
  split at h
  · cases h
  split at h
  · cases h
  rename_i entry hentry
  obtain ⟨memory, hload, h⟩ := Except.bind_eq_ok.mp h
  cases h
  refine ⟨?_, fun a ha => ?_⟩
  · -- only the read-only flag of one entry changes, not its frame
    apply List.ext_getElem?
    intro j
    rw [List.getElem?_map, List.getElem?_map, List.getElem?_set]
    split
    · rename_i hj
      rw [← hj, hentry]
      split
      · rfl
      · rename_i hlen
        exact absurd (List.getElem?_eq_some_iff.mp hentry).1 hlen
    · rfl
  · -- the page is loaded into the frame of that entry
    have hne := outside_iff.mp ha entry (List.mem_of_getElem? hentry)
    unfold loadPage at hload
    dsimp only at hload
    split at hload
    · cases hload
    split at hload
    · cases hload
    split at hload
    · cases hload
    · cases hload
      apply blit_outside
      simp only [pageSize] at *
      omega

/-- `load` takes pages of the pool, and writes to them only. -/
theorem load_outside {f f' : Frames} {executable : Option Coff} {args : List (List UInt8)}
    {image : Image} (h : load f executable args = .ok (some (image, f'))) :
    ∃ n ≤ f.freePagesPool.length,
      image.pageTable.map TranslationEntry.ppn = f.freePagesPool.take n ∧
      f'.freePagesPool = f.freePagesPool.drop n ∧ f'.numPhysPages = f.numPhysPages ∧
      ∀ a, Outside (f.freePagesPool.take n) a → f'.memory a = f.memory a := by
  unfold load at h
  split at h
  · cases h
  split at h
  · cases h
  rename_i coff coffPages hsections
  split at h
  · cases h
  obtain ⟨r, hload, h⟩ := Except.bind_eq_ok.mp h
  cases r with
  | none => cases h
  | some r =>
    obtain ⟨pageTable, f₁⟩ := r
    obtain ⟨memory, hstore, h⟩ := Except.bind_eq_ok.mp h
    obtain ⟨rfl, rfl⟩ := Prod.mk.inj (Option.some.inj (Except.ok.inj h))
    unfold loadSections at hload
    split at hload
    · cases hload
    split at hload
    · cases hload
    rename_i hpool
    obtain ⟨⟨table, memory₁⟩, hcopy, hload⟩ := Except.bind_eq_ok.mp hload
    cases hload
    -- the two nested loops over sections and pages keep what is outside the new table
    have hsame := Except.foldlM_invariant SameOutside.refl SameOutside.trans
      (fun {state s state'} h => Except.foldlM_invariant SameOutside.refl SameOutside.trans
        (fun {state i state'} h => copyPage_outside h) h) hcopy
    rw [SameOutside, newPageTable_ppn] at hsame
    refine ⟨_, Nat.le_of_not_lt hpool, hsame.1, rfl, rfl, fun a ha => ?_⟩
    exact (storeArguments_outside (hsame.1.symm ▸ ha) hstore).trans (hsame.2 a ha)

end Outside

/-! ## The processes and the free pages -/

/-- The memory is an array, and the pages of the processes and the free pages are in frames of
    their own. -/
structure InOrder (s : Machine) : Prop where
  array : s.frames.numPhysPages * pageSize < 2 ^ 31
  free : FreePages s.frames
  mapped : ∀ p image, s.process p = some image → Mapped s.frames.numPhysPages image.pageTable
  apart : ∀ p q image image', p ≠ q → s.process p = some image → s.process q = some image' →
    ∀ e ∈ image.pageTable, ∀ e' ∈ image'.pageTable, e.ppn ≠ e'.ppn
  notFree : ∀ p image, s.process p = some image → ∀ e ∈ image.pageTable,
    e.ppn ∉ s.frames.freePagesPool
  fresh : ∀ p, s.numProcesses ≤ p → s.process p = none

/-- All pages are free at first. -/
theorem inOrder_boot {n : Nat} (hn : n * pageSize < 2 ^ 31) (memory : Nat → UInt8) :
    InOrder (boot n memory) where
  array := hn
  free := by
    refine ⟨?_, ?_⟩
    · intro page hpage
      obtain ⟨k, hk, rfl⟩ := List.mem_map.mp hpage
      have := List.mem_range.mp hk
      exact ⟨Int.natCast_nonneg k, by exact_mod_cast this⟩
    · exact List.nodup_range.map fun a b hab => Int.natCast_inj.mp hab
  mapped := nofun
  apart := nofun
  notFree := nofun
  fresh _ _ := rfl

section Machine

variable {s : Machine} {p : Nat} {image : Image}

theorem exists_image (hl : userProcess.isLive s p = true) : ∃ image, s.process p = some image :=
  Option.isSome_iff_exists.mp hl

theorem numPages_eq (h : s.process p = some image) :
    userProcess.numPages s p = image.pageTable.length := by
  simp [userProcess, h]

theorem byteAt_eq (h : s.process p = some image) (a : Nat) :
    userProcess.byteAt s p a = (translate image.pageTable a).map s.frames.memory := by
  simp [userProcess, h]

/-- A physical address of one process is in no frame of another. -/
theorem InOrder.outside (hs : InOrder s) {q : Nat} {image' : Image} (hpq : p ≠ q)
    (h : s.process p = some image) (h' : s.process q = some image') {a b : Nat}
    (hb : translate image'.pageTable a = some b) :
    Outside (image.pageTable.map TranslationEntry.ppn) b := by
  obtain ⟨e', he', rfl⟩ := translate_eq_some.mp hb
  have hmem' := List.mem_of_getElem? he'
  have hrange' := (hs.mapped q image' h').inRange e' hmem'
  refine outside_iff.mpr fun e he heq => ?_
  rw [frameAddr_div (Nat.mod_lt _ (by decide))] at heq
  have hrange := (hs.mapped p image h).inRange e he
  exact hs.apart p q image image' hpq h h' e he e' hmem' (by omega)

/-- Writing to the memory leaves the tables as they are. -/
theorem InOrder.setMemory (hs : InOrder s) (memory : Nat → UInt8) :
    InOrder { s with frames := { s.frames with memory := memory } } :=
  ⟨hs.array, ⟨hs.free.inRange, hs.free.nodup⟩, hs.mapped, hs.apart, hs.notFree, hs.fresh⟩

/-- Writing outside the read-only pages keeps their bytes. -/
theorem kept_setMemory {memory : Nat → UInt8}
    (h : ∀ q image' a b, s.process q = some image' →
      userProcess.readOnly s q (a / pageSize) = true → translate image'.pageTable a = some b →
      memory b = s.frames.memory b) :
    Kept userProcess s { s with frames := { s.frames with memory := memory } } := by
  refine ⟨Nat.le_refl _, fun _ _ hl => hl, fun _ _ _ => rfl, fun _ _ _ _ => rfl, ?_⟩
  intro q _ hl a _ hro
  obtain ⟨image', himage'⟩ := exists_image hl
  have himage : s.process q = some image' := himage'
  rw [byteAt_eq himage', byteAt_eq himage]
  cases htr : translate image'.pageTable a with
  | none => rfl
  | some b => exact congrArg some (h q image' a b himage hro htr)

/-- The limit on the address does not overflow. -/
theorem admitted_iff {pageTable : List TranslationEntry}
    (hpages : pageTable.length * pageSize < 2 ^ 31) {vaddr : Int} :
    Admitted pageTable.length vaddr ↔
      0 ≤ vaddr ∧ vaddr < (pageTable.length * (pageSize - 1) : Nat) := by
  unfold Admitted
  rw [wrap32_limit hpages]

/-- `writeVirtualMemory` where there is no read-only page. -/
theorem write_safe (hs : InOrder s) (hl : userProcess.isLive s p = true) {vaddr : Int}
    {data : List UInt8} {length : Nat} (hint : vaddr < 2 ^ 31) (hlen : length ≤ data.length)
    (hdata : data.length < 2 ^ 31)
    (hclear : Admitted (userProcess.numPages s p) vaddr → userProcess.Clear s p vaddr length) :
    ∃ s', userProcess.writeVirtualMemory s p vaddr data 0 length =
      .ok (writeResult (userProcess.numPages s p) vaddr length, s') ∧
      Safe userProcess InOrder p s s' := by
  obtain ⟨image, himage⟩ := exists_image hl
  have hm := hs.mapped p image himage
  have hpages := hm.size_lt hs.array
  have hwrap : wrap32 ((0 : Int) + length) = length := by
    rw [Int.zero_add, wrap32_natCast (by omega)]
  rw [numPages_eq himage] at hclear ⊢
  simp only [userProcess, himage]
  unfold writeResult
  by_cases had : Admitted image.pageTable.length vaddr
  · have hbounds := (admitted_iff hpages).mp had
    obtain ⟨v, rfl⟩ := Int.eq_ofNat_of_zero_le hbounds.1
    have hargs : IntArgs v (0 : Nat) length data := ⟨hint, by decide, by omega, hdata⟩
    have hnot : ¬ Refused image.pageTable v (0 : Nat) length data.length := by
      unfold Refused
      rw [Int.ofNat_zero, hwrap]
      omega
    have hreach : reach image.pageTable v length ≤ length := Nat.min_le_right _ _
    obtain ⟨memory', hrun, hwritten⟩ := (writeVirtualMemory_outcome hm hpages s.frames.memory hargs
      hnot).1 (by omega)
    rw [Int.ofNat_zero] at hrun
    refine ⟨{ s with frames := { s.frames with memory := memory' } }, ?_, hs.setMemory memory', ?_,
      hl⟩
    · have hresult : (if Admitted image.pageTable.length (v : Int) ∧
          (v : Int) + length ≤ (image.pageTable.length * pageSize : Nat) then length else 0) =
          if v + length ≤ image.pageTable.length * pageSize then length else 0 :=
        if_congr ⟨fun h => by omega, fun h => ⟨had, by omega⟩⟩ rfl rfl
      rw [hrun, hresult]
      rfl
    · apply kept_setMemory
      intro q image' a b himage' hro hb
      apply hwritten.outside
      intro i _ hi hvi
      by_cases hpq : p = q
      · -- the byte is one of the range, which has no read-only page
        subst hpq
        obtain rfl := Option.some.inj (himage.symm.trans himage')
        obtain rfl := translate_inj hm hb hvi
        have hin : v + i < image.pageTable.length * pageSize := by
          unfold reach at hi
          omega
        have hno := hclear had (v + i) (by omega) (by omega)
          (by rw [numPages_eq himage]; exact Nat.div_lt_of_lt_mul (by rw [Nat.mul_comm]; exact hin))
        rw [hno] at hro
        cases hro
      · have hout := hs.outside hpq himage himage' hb
        obtain ⟨e, he, rfl⟩ := translate_eq_some.mp hvi
        have hne := outside_iff.mp hout e (List.mem_of_getElem? he)
        rw [frameAddr_div (Nat.mod_lt _ (by decide))] at hne
        exact hne rfl
  · have hbounds := mt (admitted_iff hpages).mpr had
    have hrefused : Refused image.pageTable vaddr 0 length data.length := by
      unfold Refused
      omega
    refine ⟨s, ?_, Safe.refl hs hl⟩
    rw [writeVirtualMemory_refused hpages s.frames.memory hrefused, if_neg fun h => had h.1]
    rfl

/-- A new process gets pages that were free. -/
theorem execute_kept (hs : InOrder s) {s' : Machine} {executable : Option CoffFile}
    {args : List (List UInt8)} (h : userProcess.execute s executable args = .ok (.runs s')) :
    InOrder s' ∧ Kept userProcess s s' := by
  simp only [userProcess] at h
  split at h
  · cases h
  · cases h
  · cases h
  rename_i image frames hload
  cases h
  obtain ⟨n, hn, hppn, hpool, hphys, hmemory⟩ := load_outside hload
  have hnew : ∀ e ∈ image.pageTable, e.ppn ∈ s.frames.freePagesPool.take n := fun e he =>
    hppn ▸ List.mem_map_of_mem he
  -- the other processes are in no frame of the pool
  have hother : ∀ q image', s.process q = some image' → ∀ e ∈ image'.pageTable,
      ∀ e' ∈ image.pageTable, e.ppn ≠ e'.ppn := by
    intro q image' himage' e he e' he' heq
    exact hs.notFree q image' himage' e he (heq ▸ List.mem_of_mem_take (hnew e' he'))
  have hprocess : ∀ q image', Function.update s.process s.numProcesses (some image) q =
      some image' → q = s.numProcesses ∧ image' = image ∨ s.process q = some image' := by
    intro q image' himage'
    by_cases hq : q = s.numProcesses
    · subst hq
      rw [Function.update_self] at himage'
      exact Or.inl ⟨rfl, (Option.some.inj himage').symm⟩
    · rw [Function.update_of_ne hq] at himage'
      exact Or.inr himage'
  constructor
  · refine ⟨hphys ▸ hs.array, ⟨?_, ?_⟩, ?_, ?_, ?_, ?_⟩
    · intro page hpage
      rw [hpool] at hpage
      rw [hphys]
      exact hs.free.inRange page (List.mem_of_mem_drop hpage)
    · rw [hpool]
      exact hs.free.nodup.sublist (List.drop_sublist _ _)
    · intro q image' himage'
      rw [hphys]
      obtain ⟨-, rfl⟩ | himage := hprocess q image' himage'
      · exact hs.free.mapped hppn
      · exact hs.mapped q image' himage
    · intro q q' image₁ image₂ hne h₁ h₂ e he e' he'
      obtain ⟨hq, rfl⟩ | himage₁ := hprocess q image₁ h₁
      · obtain ⟨hq', -⟩ | himage₂ := hprocess q' image₂ h₂
        · exact absurd (hq.trans hq'.symm) hne
        · exact (hother q' image₂ himage₂ e' he' e he).symm
      · obtain ⟨-, rfl⟩ | himage₂ := hprocess q' image₂ h₂
        · exact hother q image₁ himage₁ e he e' he'
        · exact hs.apart q q' image₁ image₂ hne himage₁ himage₂ e he e' he'
    · intro q image' himage' e he hfree
      rw [hpool] at hfree
      obtain ⟨-, rfl⟩ | himage := hprocess q image' himage'
      · exact List.disjoint_take_drop hs.free.nodup (Nat.le_refl n) (hnew e he) hfree
      · exact hs.notFree q image' himage e he (List.mem_of_mem_drop hfree)
    · intro q hq
      have hq' : s.numProcesses + 1 ≤ q := hq
      show Function.update s.process s.numProcesses (some image) q = none
      rw [Function.update_of_ne (show q ≠ s.numProcesses by omega)]
      exact hs.fresh q (by omega)
  · have hsame : ∀ q < s.numProcesses, Function.update s.process s.numProcesses (some image) q =
        s.process q := fun q hq => Function.update_of_ne (Nat.ne_of_lt hq) _ _
    refine ⟨Nat.le_succ _, ?_, ?_, ?_, ?_⟩
    · intro q hq hl
      simpa only [userProcess, hsame q hq] using hl
    · intro q hq _
      simp only [userProcess, hsame q hq]
    · intro q hq _ v
      simp only [userProcess, hsame q hq]
    · intro q hq hl a _ _
      obtain ⟨image', himage'⟩ := exists_image hl
      have himage : s.process q = some image' := (hsame q hq).symm.trans himage'
      rw [byteAt_eq himage', byteAt_eq himage]
      cases htr : translate image'.pageTable a with
      | none => rfl
      | some b =>
        refine congrArg some (hmemory b ?_)
        -- `b` is in a frame of the old process
        rw [← hppn]
        obtain ⟨e, he, rfl⟩ := translate_eq_some.mp htr
        have hmem := List.mem_of_getElem? he
        have hrange := (hs.mapped q image' himage).inRange e hmem
        refine outside_iff.mpr fun e' he' heq => ?_
        rw [frameAddr_div (Nat.mod_lt _ (by decide))] at heq
        have hrange' := (hs.free.mapped hppn).inRange e' he'
        exact hother q image' himage e hmem e' he' (by omega)

/-- A process that exits gives its pages back to the pool. -/
theorem exit_kept (hs : InOrder s) {s' : Machine} (h : userProcess.handleExit s p = .ok s') :
    InOrder s' ∧ Kept userProcess s s' := by
  simp only [userProcess] at h
  split at h
  · cases h
  rename_i image himage
  cases h
  -- the processes left are the old ones without `p`
  have hprocess : ∀ q image', Function.update s.process p none q = some image' →
      q ≠ p ∧ s.process q = some image' := by
    intro q image' himage'
    by_cases hq : q = p
    · subst hq
      rw [Function.update_self] at himage'
      cases himage'
    · rw [Function.update_of_ne hq] at himage'
      exact ⟨hq, himage'⟩
  constructor
  · refine ⟨hs.array, ⟨?_, ?_⟩, ?_, ?_, ?_, ?_⟩
    · intro page hpage
      rcases List.mem_append.mp hpage with hpage | hpage
      · exact hs.free.inRange page hpage
      · obtain ⟨e, he, rfl⟩ := List.mem_map.mp hpage
        exact (hs.mapped p image himage).inRange e he
    · -- the frames that come back were not free, being mapped by `p`
      refine List.nodup_append.mpr ⟨hs.free.nodup, (hs.mapped p image himage).nodup, ?_⟩
      rintro page hpage page' hpage' rfl
      obtain ⟨e, he, rfl⟩ := List.mem_map.mp hpage'
      exact hs.notFree p image himage e he hpage
    · intro q image' himage'
      exact hs.mapped q image' (hprocess q image' himage').2
    · intro q q' image₁ image₂ hne h₁ h₂
      exact hs.apart q q' image₁ image₂ hne (hprocess q image₁ h₁).2 (hprocess q' image₂ h₂).2
    · -- a frame that another process maps was neither free nor mapped by `p`
      intro q image' himage' e he hfree
      obtain ⟨hq, himage₁⟩ := hprocess q image' himage'
      rcases List.mem_append.mp hfree with hfree | hfree
      · exact hs.notFree q image' himage₁ e he hfree
      · obtain ⟨e', he', heq⟩ := List.mem_map.mp hfree
        exact hs.apart p q image image' hq.symm himage himage₁ e' he' e he heq
    · intro q hq
      show Function.update s.process p none q = none
      by_cases hqp : q = p
      · rw [hqp, Function.update_self]
      · rw [Function.update_of_ne hqp]
        exact hs.fresh q hq
  · have hsame : ∀ q, (Function.update s.process p none q).isSome = true →
        Function.update s.process p none q = s.process q := by
      intro q hl
      obtain ⟨image', himage'⟩ := Option.isSome_iff_exists.mp hl
      exact himage'.trans (hprocess q image' himage').2.symm
    refine ⟨Nat.le_refl _, ?_, ?_, ?_, ?_⟩
    · intro q _ hl
      simpa only [userProcess, hsame q hl] using hl
    · intro q _ hl
      simp only [userProcess, hsame q hl]
    · intro q _ hl v
      simp only [userProcess, hsame q hl]
    · intro q _ hl a _ _
      simp only [userProcess, hsame q hl]

end Machine

/-- The methods of `UserProcess` keep the contract. -/
theorem userProcess_contract : Contract userProcess InOrder where
  live_lt := by
    intro s p hs hl
    obtain ⟨image, himage⟩ := exists_image hl
    by_contra hge
    rw [hs.fresh p (Nat.le_of_not_lt hge)] at himage
    cases himage
  restoreState := by
    intro s p hs hl
    exact ⟨s, rfl, Safe.refl hs hl⟩
  readVirtualMemory := by
    intro s s' p vaddr data offset length n data' hs hl h
    obtain ⟨image, himage⟩ := exists_image hl
    simp only [userProcess, himage] at h
    obtain ⟨⟨n₁, data₁⟩, -, h⟩ := Except.bind_eq_ok.mp h
    cases h
    exact Safe.refl hs hl
  writeVirtualMemory hs hl := write_safe hs hl
  execute hs := execute_kept hs
  handleExit := by
    intro s s₁ s' p hs hl hrestore h
    obtain rfl : s = s₁ := Except.ok.inj hrestore
    exact exit_kept hs h

end UserProcess

end Nachos
