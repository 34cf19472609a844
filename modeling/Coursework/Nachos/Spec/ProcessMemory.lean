import Coursework.Nachos.Spec.ProcessSteps
import Coursework.Nachos.Spec.UserMemory

/-!
# The memory of the processes

The frames of the pool and of the page tables are apart in every state that is reached, so
a status that `join` writes changes the memory of the process that joins, and of no other.
-/

namespace Nachos

open Mesa (Phase Step)
open UserProcess (Mapped Written translate translate_eq_some translate_of_lt writeVirtualMemory
  writeLoop_spec bytesFromInt wrap32_natCast)

namespace Processes

/-! ## Frames -/

/-- The frames that the pages of a process are in. -/
def frames (u : UserProc) : List Nat := u.pageTable.map (·.ppn.toNat)

/-- The frames of the pool and of the page tables are apart, and the memory is one array. -/
structure FramesOk (f : Processes) : Prop where
  array : f.numPhysPages * pageSize < 2 ^ 31
  pool : f.freePagesPool.Nodup
  inRange : ∀ n ∈ f.freePagesPool, n < f.numPhysPages
  mapped : ∀ p, Mapped f.numPhysPages (f.process p).pageTable
  apart : ∀ p q, p ≠ q → (frames (f.process p)).Disjoint (frames (f.process q))
  free : ∀ p, (frames (f.process p)).Disjoint f.freePagesPool
  pages : ∀ p, (f.process p).pageTable = [] ∨ stackPages < (f.process p).pageTable.length

section Frames

variable {f f' : Processes} {t : Nat} {pc pc' : Point}

/-- One process gets another page table. -/
theorem FramesOk.setTable (h : FramesOk f) (c : Nat) (table : List TranslationEntry)
    (hphys : f'.numPhysPages = f.numPhysPages)
    (hother : ∀ q, q ≠ c → (f'.process q).pageTable = (f.process q).pageTable)
    (htable : (f'.process c).pageTable = table)
    (hpool : f'.freePagesPool.Nodup) (hrange : ∀ n ∈ f'.freePagesPool, n < f.numPhysPages)
    (hmapped : Mapped f.numPhysPages table)
    (hnew : ∀ q, q ≠ c → (frames (f.process q)).Disjoint (table.map (·.ppn.toNat)))
    (hfree : ∀ q, q ≠ c → (frames (f.process q)).Disjoint f'.freePagesPool)
    (hnewFree : (table.map (·.ppn.toNat)).Disjoint f'.freePagesPool)
    (hpages : table = [] ∨ stackPages < table.length) : FramesOk f' := by
  subst htable
  have hframes : ∀ q, q ≠ c → frames (f'.process q) = frames (f.process q) := by
    intro q hq
    rw [frames, hother q hq, frames]
  refine ⟨hphys ▸ h.array, hpool, hphys ▸ hrange, fun p => ?_, fun p q hpq => ?_, fun p => ?_,
    fun p => ?_⟩
  · -- every clause about two processes has three cases: neither is `c`, or one of them is
    by_cases hp : p = c
    · exact hp ▸ hphys ▸ hmapped
    · exact hother p hp ▸ hphys ▸ h.mapped p
  · by_cases hp : p = c
    · subst hp
      rw [hframes q (Ne.symm hpq)]
      exact fun n hn hn' => hnew q (Ne.symm hpq) hn' hn
    · by_cases hq : q = c
      · subst hq
        rw [hframes p hp]
        exact hnew p hp
      · rw [hframes p hp, hframes q hq]
        exact h.apart p q hpq
  · by_cases hp : p = c
    · exact hp ▸ hnewFree
    · exact hframes p hp ▸ hfree p hp
  · by_cases hp : p = c
    · exact hp ▸ hpages
    · exact hother p hp ▸ h.pages p

theorem map_ppn_loadSections (image : Image) (pool : List Nat) :
    (loadSections image pool).map TranslationEntry.ppn =
      (pool.take image.numPages).map fun n : Nat => (n : Int) := by
  apply List.ext_getElem <;> simp [loadSections]

theorem frames_loadSections (image : Image) (pool : List Nat) :
    (loadSections image pool).map (·.ppn.toNat) = pool.take image.numPages := by
  have hmap := congrArg (List.map Int.toNat) (map_ppn_loadSections image pool)
  simpa [Function.comp_def] using hmap

/-- The page table of a process that has been loaded. -/
theorem mapped_loadSections {image : Image} {pool : List Nat} {n : Nat} (hpool : pool.Nodup)
    (hrange : ∀ k ∈ pool, k < n) : Mapped n (loadSections image pool) where
  inRange e he := by
    have hmem : e.ppn ∈ (loadSections image pool).map TranslationEntry.ppn :=
      List.mem_map_of_mem he
    rw [map_ppn_loadSections] at hmem
    obtain ⟨k, hk, hke⟩ := List.mem_map.mp hmem
    have := hrange k (List.mem_of_mem_take hk)
    omega
  nodup := by
    rw [map_ppn_loadSections]
    exact (hpool.sublist (List.take_sublist _ _)).map fun a b hab => Int.natCast_inj.mp hab

/-- A process gets its pages from the pool. -/
theorem FramesOk.load (h : FramesOk f) (im : Image) (c : Nat)
    (hpages : im.numPages ≤ f.freePagesPool.length) (hphys : f'.numPhysPages = f.numPhysPages)
    (hother : ∀ q, q ≠ c → (f'.process q).pageTable = (f.process q).pageTable)
    (htable : (f'.process c).pageTable = loadSections im f.freePagesPool)
    (hpool : f'.freePagesPool = f.freePagesPool.drop im.numPages) : FramesOk f' := by
  have hframes := frames_loadSections im f.freePagesPool
  have hdrop : ∀ {n}, n ∈ f'.freePagesPool → n ∈ f.freePagesPool := by
    intro n hn
    exact List.mem_of_mem_drop (hpool ▸ hn)
  refine h.setTable c _ hphys hother htable (hpool ▸ h.pool.sublist (List.drop_sublist _ _))
    (fun n hn => h.inRange n (hdrop hn)) (mapped_loadSections h.pool h.inRange)
    (fun q _ n hn hn' => ?_) (fun q _ n hn hn' => h.free q hn (hdrop hn')) ?_ (.inr ?_)
  · rw [hframes] at hn'
    exact h.free q hn (List.mem_of_mem_take hn')
  · rw [hframes, hpool]
    exact List.disjoint_take_drop h.pool (Nat.le_refl _)
  · have hlen := congrArg List.length hframes
    simp only [List.length_map, List.length_take, Nat.min_eq_left hpages] at hlen
    simp only [hlen, Image.numPages]
    omega

/-- Every statement keeps the frames apart. -/
theorem Act.frames (h : FramesOk f) (ha : Act f t pc f' pc') : FramesOk f' := by
  -- most steps change neither a table nor the pool
  have hsame : ∀ {f'' : Processes}, f''.numPhysPages = f.numPhysPages →
      f''.freePagesPool = f.freePagesPool →
      (∀ q, (f''.process q).pageTable = (f.process q).pageTable) → FramesOk f'' := by
    intro f'' hphys hpool htable
    have hframes : ∀ q, Processes.frames (f''.process q) = Processes.frames (f.process q) := by
      intro q
      rw [Processes.frames, htable q, Processes.frames]
    exact ⟨hphys ▸ h.array, hpool ▸ h.pool, hphys ▸ hpool ▸ h.inRange,
      fun p => htable p ▸ hphys ▸ h.mapped p,
      fun p q hpq => hframes p ▸ hframes q ▸ h.apart p q hpq,
      fun p => hframes p ▸ hpool ▸ h.free p, fun p => htable p ▸ h.pages p⟩
  have hmodify : ∀ p (g : UserProc → UserProc), (∀ u, (g u).pageTable = u.pageTable) →
      FramesOk (f.modify p g) := by
    intro p g hg
    refine hsame rfl rfl fun q => ?_
    rw [process_modify]
    split
    · exact hg _
    · rfl
  cases ha with
  | assignPid =>
    exact h.setTable f.globalPid [] rfl (fun q hq => by simp [hq]) (by simp)
      h.pool h.inRange ⟨by simp, by simp⟩ (by simp) (fun q _ => h.free q) (by simp) (.inl rfl)
  | @load im c _ hpool =>
    exact h.load im c hpool rfl (fun q hq => by simp [modify, hq]) (by simp [modify]) rfl
  | unload =>
    -- the frames of the table go to the pool, where they were not before
    refine h.setTable t [] rfl (fun q hq => by simp [modify, hq])
      (by simp [modify]) ?_ ?_ ⟨by simp, by simp⟩ (by simp) (fun q hq n hn hn' => ?_) (by simp)
      (.inl rfl)
    · refine List.nodup_append.mpr ⟨h.pool, (h.mapped t).frames_nodup, ?_⟩
      rintro a ha b hb rfl
      exact h.free t hb ha
    · intro n hn
      rcases List.mem_append.mp hn with hn | hn
      · exact h.inRange n hn
      · obtain ⟨e, he, rfl⟩ := List.mem_map.mp hn
        have := (h.mapped t).inRange e he
        omega
    · rcases List.mem_append.mp hn' with hn' | hn'
      · exact h.free q hn hn'
      · exact h.apart q t hq hn hn'
  | callExit e hf => exact hmodify _ _ fun _ => rfl
  | fork => exact hmodify _ _ fun _ => rfl
  | setParent => exact hmodify _ _ fun _ => rfl
  | addChild => exact hmodify _ _ fun _ => rfl
  | orphan hj => exact hmodify _ _ fun _ => rfl
  | hasParent q hq => exact hmodify _ _ fun _ => rfl
  | noParent hq => exact hmodify _ _ fun _ => rfl
  | addBucket q hq => exact hmodify _ _ fun _ => rfl
  | remove => exact hmodify _ _ fun _ => rfl
  | _ => exact hsame rfl rfl fun _ => rfl

end Frames

/-! ## The memory of a process -/

/-- What process `p` has at a virtual address. -/
def userByte (f : Processes) (p vaddr : Nat) : Option UInt8 :=
  (translate (f.process p).pageTable vaddr).map f.memory

/-- The four bytes from a virtual address on are those of an `int`. -/
def Holds (f : Processes) (p : Nat) (addr value : BitVec 32) : Prop :=
  ∀ i, i < 4 → userByte f p (addr.toNat + i) = (bytesFromInt value)[i]?

/-- The four bytes from a virtual address on are in pages that the process may write to. -/
def Writable (f : Processes) (p : Nat) (addr : BitVec 32) : Prop :=
  ∀ i, i < 4 → ∃ e, (f.process p).pageTable[(addr.toNat + i) / pageSize]? = some e ∧
    e.readOnly = false

theorem bytesFromInt_length (value : BitVec 32) : (bytesFromInt value).length = 4 := rfl

section Write

variable {n : Nat} {table : List TranslationEntry}

/-- The status is written, all of it, if its address is below the bound of
    `writeVirtualMemory`; otherwise nothing is. -/
theorem writeStatus_spec (memory : Nat → UInt8) (addr value : BitVec 32) (hm : Mapped n table)
    (harray : n * pageSize < 2 ^ 31)
    (hpages : table = [] ∨ stackPages < table.length) :
    ∃ bytesWritten memory', writeVirtualMemory n table memory addr.toInt (bytesFromInt value) 0 4 =
      .ok (bytesWritten, memory') ∧
      if addr.toNat < table.length * (pageSize - 1) then
        addr.toNat + 4 ≤ table.length * pageSize ∧
          Written table addr.toNat 0 (bytesFromInt value) 0 4 memory memory'
      else memory' = memory := by
  have hle : table.length * pageSize ≤ n * pageSize := Nat.mul_le_mul_right _ hm.length_le
  have hbound : table.length * (pageSize - 1) < 2 ^ 31 := by
    have := Nat.mul_le_mul_left table.length (Nat.sub_le pageSize 1)
    omega
  have hcast : (table.length : Int) * ((pageSize - 1 : Nat) : Int) =
      ((table.length * (pageSize - 1) : Nat) : Int) := by
    push_cast
    rfl
  unfold writeVirtualMemory
  rw [if_neg (by rw [bytesFromInt_length]; decide), hcast, wrap32_natCast hbound]
  by_cases haddr : addr.toNat < 2 ^ 31
  · rw [BitVec.toInt_eq_toNat_of_lt (by omega)]
    by_cases hin : addr.toNat < table.length * (pageSize - 1)
    · have hend : addr.toNat + 4 ≤ table.length * pageSize := by
        -- the test admits no address in the last bytes of the space, so four bytes from an admitted
        -- one still fit: there are more pages than those of the stack
        rcases hpages with rfl | hpages
        · simp at hin
        · simp only [pageSize, stackPages] at hin hpages ⊢
          omega
      have hdata : 0 + 4 ≤ (bytesFromInt value).length :=
        Nat.le_of_eq (bytesFromInt_length value).symm
      obtain ⟨memory', hrun, hwritten⟩ := @writeLoop_spec n table hm addr.toNat 0 4
        (bytesFromInt value) hend (by omega) hdata (by rw [bytesFromInt_length]; decide) 5 0 memory
        (by decide) (by decide)
      refine ⟨4, memory', ?_, by rw [if_pos hin]; exact ⟨hend, hwritten⟩⟩
      rw [if_neg (by omega)]
      exact hrun
    · exact ⟨0, memory, if_pos (by omega), by rw [if_neg hin]⟩
  · -- an address from 2 ^ 31 on is a negative number to the source
    have hneg : addr.toInt < 0 := by
      rw [BitVec.toInt_eq_toNat_cond, if_neg (by omega)]
      omega
    exact ⟨0, memory, if_pos (.inl hneg), by rw [if_neg (by omega)]⟩

end Write

/-- A status that has been written can be read. -/
theorem holds_of_written {f : Processes} {p : Nat} {addr value : BitVec 32} {memory : Nat → UInt8}
    (hend : addr.toNat + 4 ≤ (f.process p).pageTable.length * pageSize)
    (h : Written (f.process p).pageTable addr.toNat 0 (bytesFromInt value) 0 4 f.memory memory) :
    Holds { f with memory := memory } p addr value := by
  intro i hi
  obtain ⟨e, -, htr⟩ := translate_of_lt (f.process p).pageTable (x := addr.toNat + i) (by omega)
  have hbyte := h.inside i (Nat.zero_le _) hi _ htr
  rw [Nat.zero_add] at hbyte
  simp only [userByte, htr, Option.map_some, hbyte]
  rw [List.getD_eq_getElem?_getD, List.getElem?_eq_getElem (by rw [bytesFromInt_length]; exact hi)]
  rfl

/-- The frames of two processes hold different bytes. -/
theorem FramesOk.translate_ne {f : Processes} (h : FramesOk f) {p t x y a : Nat} (hpt : p ≠ t)
    (hx : translate (f.process p).pageTable x = some a) :
    translate (f.process t).pageTable y ≠ some a := by
  intro hy
  obtain ⟨e, he, rfl⟩ := translate_eq_some.mp hx
  obtain ⟨e', he', heq⟩ := translate_eq_some.mp hy
  have hmod : ∀ z : Nat, z % pageSize < pageSize := fun z => Nat.mod_lt _ (by decide)
  obtain ⟨hppn, -⟩ := (frameAddr_inj (hmod y) (hmod x)).mp heq
  refine h.apart p t hpt (List.mem_map_of_mem (List.mem_of_getElem? he)) ?_
  exact hppn ▸ List.mem_map_of_mem (List.mem_of_getElem? he')

/-- What a process has at an address is not changed by the statements of another. -/
theorem Act.userByte_other {f f' : Processes} {t p : Nat} {pc pc' : Point} (h : FramesOk f)
    (ha : Act f t pc f' pc') (hpt : p ≠ t)
    (htable : (f'.process p).pageTable = (f.process p).pageTable) (x : Nat) :
    userByte f' p x = userByte f p x := by
  unfold userByte
  rw [htable]
  cases htr : translate (f.process p).pageTable x with
  | none => rfl
  | some a =>
    refine congrArg some ?_
    cases ha with
    | @report pid addr r c bytesWritten memory hstatus hwrite =>
      obtain ⟨b, memory', hrun, hcase⟩ :=
        writeStatus_spec f.memory addr r (h.mapped t) h.array (h.pages t)
      rw [hwrite] at hrun
      obtain ⟨-, rfl⟩ := Prod.mk.inj (Except.ok.inj hrun)
      split at hcase
      · exact hcase.2.outside a fun i _ _ => h.translate_ne hpt htr
      · exact congrFun hcase a
    | _ => rfl

/-! ## Runs -/

/-- What holds in every state of the threads that is reached. -/
structure Sound (st : System) : Prop where
  inv : Inv st.monitor
  locks : Threads.LockQueued st
  frames : FramesOk st.shared

/-- The frames stay apart in every step. -/
theorem step_frames {st st' : Monitor} (h : FramesOk st.shared) (hstep : Step program st st') :
    FramesOk st'.shared := by
  cases hstep with
  | @act t pc i shared next hpc hinstr =>
    have hex : Executes st.shared t pc (.act shared next) := hinstr ▸ executes_instr pc i
    exact Act.frames h hex
  | _ => exact h

theorem Sound.step {st st' : System} {choice : Choice Nat Syscall} (h : Sound st)
    (hstep : Threads.step program st choice = some st') : Sound st' := by
  obtain ⟨hsteps, hlocks⟩ := Threads.step_steps h.locks h.inv.queued hstep
  exact ⟨hsteps.invariant step_inv h.inv, hlocks,
    hsteps.invariant (Q := fun st => FramesOk st.shared) step_frames h.frames⟩

theorem Sound.run {st st' : System} {choices : List (Choice Nat Syscall)} (h : Sound st)
    (hrun : Threads.run program st choices = some st') : Sound st' := by
  induction choices generalizing st with
  | nil => exact Option.some.inj hrun ▸ h
  | cons choice choices ih =>
    simp only [Threads.run, List.foldlM_cons, Option.bind_eq_bind, Option.bind_eq_some_iff] at hrun
    obtain ⟨st₁, h₁, h₂⟩ := hrun
    exact ih (h.step h₁) h₂

theorem boot_sound {n : Nat} {image : Image} {st : System} (h : boot n image = some st) :
    Sound st := by
  have hinv := boot_inv h
  unfold boot at h
  split at h
  · rename_i hmem
    obtain rfl := Option.some.inj h
    have hempty : FramesOk { numPhysPages := n, freePagesPool := List.range n } :=
      ⟨hmem.1, List.nodup_range, by simp, fun _ => ⟨by simp, by simp⟩, by simp [frames],
        by simp [frames], fun _ => .inl rfl⟩
    refine ⟨hinv, ⟨by simp, by simp⟩, hempty.load image 0 (by simpa using hmem.2) rfl
      (fun q hq => by simp [hq]) (by simp) rfl⟩
  · simp at h

end Processes

end Nachos
