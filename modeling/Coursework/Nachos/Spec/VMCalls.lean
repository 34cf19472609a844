import Coursework.Nachos.Spec.EmptyTlb
import Coursework.Nachos.Spec.LiveProcesses
import Coursework.Nachos.Spec.Pristine
import Coursework.Nachos.Spec.SystemCalls
import Coursework.Nachos.Spec.Transparency
import Coursework.Nachos.Spec.UserMemory

/-!
# The methods of `VMProcess`

`vmProcess` meets the contract of `Spec/SystemCalls.lean`. A read-only page comes from the
executable. As long as nothing marks it as modified it is never saved to swap: it is dropped and
read from its section again, and keeps its bytes. The TLB is empty between the calls, so it is
marked by a kernel copy only.
-/

namespace Nachos

open ProcessClass (Kept Safe Contract Admitted writeResult)

/-! ## A page that is not modified -/

/-- Page `v` of `p` comes from the executable, and holds the bytes of its section when it is in
    memory. -/
structure Intact (ph : Phase) (m : View) (p v : Nat) : Prop where
  coff : v < m.numCoffPages p
  bytes : ∀ f j, InFrame m p v f → j < pageSize →
    m.initialByte p v j = some (m.memory (frameAddr f j))
  phase : ∀ f, ph ≠ .filling f p v true

namespace Intact

variable {ph ph' : Phase} {m m' : View} {p v : Nat}

/-- A page that has just been filled was read from its section. -/
theorem filled (h : Micro ph m ph' m') (hwf : WF ph m) (hi : Intact ph m p v) {f : Nat}
    {onSwap : Bool} (hph : ph = .filling f p v onSwap) (hin : InFrame m' p v f) {j : Nat}
    (hj : j < pageSize) : m'.initialByte p v j = some (m'.memory (frameAddr f j)) := by
  subst hph
  obtain ⟨rfl, -⟩ | ⟨-, hbyte⟩ | ⟨hc, -⟩ := h.filled_cases hwf hin
  · exact absurd rfl (hi.phase f)
  · exact hbyte j hj
  · exact absurd hi.coff hc

/-- A change that does not mark the page keeps it that way. -/
theorem micro (h : Micro ph m ph' m') (hwf : WF ph m) (hco : Coherent m)
    (hp : p < m.numProcesses) (hi : Intact ph m p v) (hu : Untouched m p v)
    (hu' : Untouched m' p v) : Intact ph' m' p v := by
  refine ⟨?_, ?_, ?_⟩
  · rw [(h.config.2 p hp).1]
    exact hi.coff
  · intro f j hin hj
    cases h.page_byte hwf hco hj hin with
    | same hin₀ hmem hlast =>
      rw [hmem]
      exact h.initialByte hp (hi.bytes f j hin₀ hj)
    | filled onSwap hph => exact hi.filled h hwf hph hin hj
    | wrote hlast hmod => exact absurd hu' hmod
  · intro f hph
    cases h with
    | note => exact hi.phase f hph
    | saveClean => exact hi.phase f hph
    | saveDirty => exact hi.phase f hph
    | claimFree =>
      -- a page that is not marked is not on swap
      simp only [Phase.filling.injEq] at hph
      obtain ⟨rfl, rfl, rfl, hd⟩ := hph
      rw [hu.1] at hd
      cases hd
    | claimVacant =>
      simp only [Phase.filling.injEq] at hph
      obtain ⟨rfl, rfl, rfl, hd⟩ := hph
      rw [hu.1] at hd
      cases hd
    | _ => simp at hph

/-- A page that is not marked at the end of an operation has not been marked before. -/
theorem chain (h : Chain (.quiet, m) (.quiet, m')) (hwf : WF .quiet m) (hco : Coherent m)
    (hp : p < m.numProcesses) (hi : Intact .quiet m p v) (hu : Untouched m' p v)
    (hev : NoLoss m'.trace) : Intact .quiet m' p v := by
  have hinv : WF .quiet m' ∧ p < m'.numProcesses ∧ (NoLoss m'.trace → Untouched m' p v →
      Coherent m' ∧ Intact .quiet m' p v) := by
    refine h.invariant (I := fun ph m => WF ph m ∧ p < m.numProcesses ∧ (NoLoss m.trace →
      Untouched m p v → Coherent m ∧ Intact ph m p v)) ?_ ⟨hwf, hp, fun _ _ => ⟨hco, hi⟩⟩
    rintro ph m ph' m' hm ⟨hwf, hp, hrest⟩
    refine ⟨WF.micro hm hwf, Nat.lt_of_lt_of_le hp hm.config.1, fun hev hu' => ?_⟩
    have hu := Untouched.of_micro hm hev hp hu'
    obtain ⟨hco, hi⟩ := hrest (hev.suffix hm.trace_suffix) hu
    exact ⟨Coherent.micro hm hwf hco hev.noStale, hi.micro hm hwf hco hp hu hu'⟩
  exact (hinv.2.2 hev hu).2

end Intact

/-- The processes that were there before keep their executables. -/
theorem Chain.config {s s' : Phase × View} (h : Chain s s') :
    s.2.numProcesses ≤ s'.2.numProcesses ∧ ∀ p < s.2.numProcesses,
      s'.2.numCoffPages p = s.2.numCoffPages p ∧ s'.2.coffMap p = s.2.coffMap p := by
  refine h.invariant (I := fun _ m => s.2.numProcesses ≤ m.numProcesses ∧
    ∀ p < s.2.numProcesses, m.numCoffPages p = s.2.numCoffPages p ∧ m.coffMap p = s.2.coffMap p)
    ?_ ⟨Nat.le_refl _, fun _ _ => ⟨rfl, rfl⟩⟩
  rintro ph m ph' m' hm ⟨hle, hsame⟩
  refine ⟨Nat.le_trans hle hm.config.1, fun p hp => ?_⟩
  obtain ⟨hcoff, hmap⟩ := hm.config.2 p (Nat.lt_of_lt_of_le hp hle)
  exact ⟨hcoff.trans (hsame p hp).1, hmap.trans (hsame p hp).2⟩

namespace Kernel

/-! ## The invariant -/

/-- Between two calls the TLB is empty and no frame is pinned, and the read-only pages of the
    processes are as their sections have them. -/
structure Sheltered (k : Kernel) : Prop where
  wf : WF .quiet k.view
  unpinned : k.Unpinned
  emptyTlb : k.EmptyTlb
  noLoss : NoLoss k.trace
  clean : ∀ p v, (k.pte p v).readOnly = true → (k.pte p v).dirty = false
  intact : ∀ p v, k.isLive p = true → v < (k.process p).numPages → (k.pte p v).readOnly = true →
    Intact .quiet k.view p v

/-- No process, no page. -/
theorem sheltered_initKernel {n : Nat} (hn : 0 < n) (ioBlocks : Bool) :
    Sheltered (initKernel n ioBlocks) where
  wf := wf_initKernel hn ioBlocks
  unpinned _ := rfl
  emptyTlb _ := rfl
  noLoss := nofun
  clean _ _ _ := rfl
  intact _ _ hl := by cases hl

variable {k k' : Kernel}

theorem coherent_of_emptyTlb (ht : k.EmptyTlb) : Coherent k.view := by
  intro i p hv
  have hv' : (k.tlb i).valid = true := hv
  rw [ht i] at hv'
  cases hv'

theorem untouched_of_clean (ht : k.EmptyTlb) {p v : Nat} (hd : (k.pte p v).dirty = false) :
    Untouched k.view p v := by
  refine ⟨hd, fun i hv => ?_⟩
  have hv' : (k.tlb i).valid = true := hv
  rw [ht i] at hv'
  cases hv'

/-- The bytes of a read-only page are those of its section, wherever it is. -/
theorem Sheltered.byteAt_eq (hs : Sheltered k) {p a : Nat} (hl : k.isLive p = true)
    (ha : a / pageSize < (k.process p).numPages) (hro : (k.pte p (a / pageSize)).readOnly = true) :
    k.byteAt p a = k.view.initialByte p (a / pageSize) (a % pageSize) := by
  have hi := hs.intact p (a / pageSize) hl ha hro
  have hcoff : a / pageSize < (k.process p).numCoffPages := hi.coff
  have hj : a % pageSize < pageSize := Nat.mod_lt _ (by decide)
  unfold byteAt
  dsimp only
  by_cases hv : (k.pte p (a / pageSize)).valid = true
  · -- in memory
    obtain ⟨f, hf, -⟩ := hs.wf.forward p (a / pageSize) hl ha hv
    have hppn : (k.pte p (a / pageSize)).ppn = f := hf
    rw [if_pos hv, hi.bytes f _ ⟨hl, ha, hv, hf⟩ hj, hppn, Int.toNat_natCast]
    rfl
  · rw [if_neg hv, hs.clean p _ hro, if_neg (by decide), if_pos hcoff]
    exact (if_pos hcoff).symm

/-- A page of the executable has the same bytes as long as its process is there. -/
theorem initialByte_of_config {m m' : View} {p v j : Nat} (hv : v < m.numCoffPages p)
    (hcoff : m'.numCoffPages p = m.numCoffPages p) (hmap : m'.coffMap p = m.coffMap p) :
    m'.initialByte p v j = m.initialByte p v j := by
  unfold View.initialByte
  rw [hcoff, hmap, if_pos hv, if_pos hv]

/-- An operation that marks no read-only page keeps the invariant. -/
theorem Sheltered.calm (hs : Sheltered k) (hchain : Chain (.quiet, k.view) (.quiet, k'.view))
    (hu : k'.Unpinned) (hcalm : Calm k k') (hlive : ∀ q, k'.isLive q = true → k.isLive q = true) :
    Sheltered k' := by
  have ht := hcalm.emptyTlb hs.emptyTlb
  have hclean : ∀ p v, (k'.pte p v).readOnly = true → (k'.pte p v).dirty = false := by
    intro p v hro
    rw [hcalm.readOnly] at hro
    exact (hcalm.dirty p v hro).trans (hs.clean p v hro)
  refine ⟨hchain.invariant WF.micro hs.wf, hu, ht, hcalm.noLoss hs.noLoss, hclean, ?_⟩
  intro p v hl hv hro
  have hl₀ := hlive p hl
  have hro₀ := hro
  have hv₀ := hv
  rw [hcalm.readOnly] at hro₀
  rw [hcalm.numPages] at hv₀
  exact (hs.intact p v hl₀ hv₀ hro₀).chain hchain hs.wf (coherent_of_emptyTlb hs.emptyTlb)
    (hs.wf.lt_of_live hl₀) (untouched_of_clean ht (hclean p v hro)) (hcalm.noLoss hs.noLoss)

/-- The read-only pages of the processes that stay have the bytes of their sections before and
    after an operation. -/
theorem kept_of_sheltered (hs : Sheltered k) (hs' : Sheltered k')
    (hchain : Chain (.quiet, k.view) (.quiet, k'.view))
    (hlive : ∀ q < k.numProcesses, k'.isLive q = true → k.isLive q = true)
    (hpages : ∀ q < k.numProcesses, (k'.process q).numPages = (k.process q).numPages)
    (hro : ∀ q < k.numProcesses, ∀ v, (k'.pte q v).readOnly = (k.pte q v).readOnly) :
    Kept vmProcess k k' := by
  obtain ⟨hle, hconfig⟩ := hchain.config
  refine ⟨hle, hlive, fun q hq _ => hpages q hq, fun q hq _ v => hro q hq v, ?_⟩
  intro q hq hl a ha hroa
  have hl₀ := hlive q hq hl
  obtain ⟨hcoff, hmap⟩ := hconfig q hq
  have ha' : a / pageSize < (k'.process q).numPages := (hpages q hq).symm ▸ ha
  show k'.byteAt q a = k.byteAt q a
  rw [hs.byteAt_eq hl₀ ha hroa, hs'.byteAt_eq hl ha' ((hro q hq _).trans hroa)]
  exact initialByte_of_config (hs.intact q _ hl₀ ha hroa).coff hcoff hmap

/-- An operation of a process that marks no read-only page is safe. -/
theorem Sheltered.safe (hs : Sheltered k) {p : Nat} (hl : k.isLive p = true)
    (hchain : Chain (.quiet, k.view) (.quiet, k'.view)) (hu : k'.Unpinned) (hcalm : Calm k k')
    (hcensus : k'.census = k.census) : Safe vmProcess Sheltered p k k' := by
  have hlive : ∀ q, k'.isLive q = k.isLive q := fun q => congrFun (congrArg Prod.fst hcensus) q
  have hs' := hs.calm hchain hu hcalm fun q hq => (hlive q).symm.trans hq
  refine ⟨hs', ?_, (hlive p).trans hl⟩
  exact kept_of_sheltered hs hs' hchain (fun q _ hq => (hlive q).symm.trans hq)
    (fun q _ => hcalm.numPages q) fun q _ v => hcalm.readOnly q v

/-! ## Context switches and reads -/

/-- A context switch to a process that is there. -/
theorem contextSwitch_safe (hs : Sheltered k) {p : Nat} (hl : k.isLive p = true) :
    vmProcess.restoreState k p = .ok { k with current := some p } ∧
      Safe vmProcess Sheltered p k { k with current := some p } := by
  obtain ⟨k₁, h₁, -⟩ := switchOut_chain hs.wf
  obtain rfl := switchOut_eq hs.emptyTlb h₁
  have hstep : k₁.step (.contextSwitch (some p)) = .ok { k₁ with current := some p } := by
    simp only [step, Option.all_some, hl, if_true, h₁, bind, Except.bind]
  have hout := step_chain hs.wf hs.unpinned (.contextSwitch (some p))
  rw [hstep] at hout
  exact ⟨hstep, hs.safe hl hout.1 hout.2 (Calm.of_same rfl rfl rfl) rfl⟩

theorem copyVirtualMemory_safe (hs : Sheltered k) {p : Nat} (hl : k.isLive p = true)
    {write : Bool} {n : Nat} {vaddr offset length : Int} {data data' : List UInt8}
    (hclear : 0 ≤ vaddr → vaddr < wrap32 ((k.process p).numPages * (pageSize - 1 : Nat)) →
      CopyClear k write p vaddr length.toNat)
    (h : copyVirtualMemory (verifyVaddr p) (verifyClean p) write k p vaddr data offset length =
      .ok (n, k', data')) : Safe vmProcess Sheltered p k k' := by
  have hout := copyVirtualMemory_chain hs.wf hs.unpinned hl write vaddr data offset length
  rw [h] at hout
  exact hs.safe hl hout.1 hout.2 (calm_copyVirtualMemory hs.emptyTlb hclear h)
    (census_copyVirtualMemory h)

/-! ## Writes -/

/-- One piece of a write, to the frame of a verified page. -/
theorem write_chunk {k₀ : Kernel} {p v f off n pos : Nat} {data : List UInt8}
    (hl : k.view.live p = true) (hn : v < k.view.numPages p) (hver : Verified k₀ k p v f true)
    (hoff : off + n ≤ pageSize) (hpos : pos + n ≤ data.length) :
    ∃ k₁ k₂, k.arraycopy true p (v * pageSize + off) ((k.pte p v).ppn * pageSize + off) (pos : Nat)
        n data = .ok (k₁, data) ∧ verifyClean p k₁ v = .ok k₂ ∧
      Chain (.quiet, k.view) (.quiet, k₂.view) ∧ k₂.Unpinned ∧
      k₂.view.live = k.view.live ∧ k₂.view.numPages = k.view.numPages := by
  have hppn : (k.pte p v).ppn = f := hver.ppn
  have hf := hver.inRange
  have hok : ∃ k₁, k.arraycopy true p (v * pageSize + off) ((k.pte p v).ppn * pageSize + off)
      (pos : Nat) n data = .ok (k₁, data) := by
    unfold arraycopy
    rw [hppn, if_pos]
    · exact ⟨_, rfl⟩
    · simp only [pageSize] at *
      omega
  obtain ⟨k₁, h₁⟩ := hok
  rcases arraycopy_chain hl hn hver hoff pos data with h | ⟨k₁', data', h, hc, hi, hp, hphys⟩
  · rw [h₁] at h
    cases h
  obtain ⟨rfl, rfl⟩ := Prod.mk.inj (Except.ok.inj (h₁.symm.trans h))
  have hppn₁ : (k₁.pte p v).ppn = f := by
    simp only [pte, hp]
    exact hver.ppn
  obtain ⟨k₂, h₂, hs₂, hu₂⟩ := unpin_spec (k := k₁) (f := f) (hphys ▸ hver.inRange)
    fun g hg => by rw [hi]; exact hver.pins g hg
  refine ⟨k₁, k₂, h₁, by rw [verifyClean, hppn₁, h₂], ?_, hu₂, ?_, ?_⟩
  · rw [hs₂.view]
    exact hc
  · rw [hs₂.view]
    simp only [view, hp]
  · rw [hs₂.view]
    simp only [view, hp]

/-- `verifyVaddr` refuses only pages that the process does not have. -/
theorem numPages_le_of_verifyVaddr {p v : Nat} {write : Bool}
    (h : verifyVaddr p k v write = .ok (false, k')) : (k.process p).numPages ≤ v := by
  unfold verifyVaddr at h
  dsimp only at h
  split at h
  · assumption
  split at h
  · have h : (pinPage p k v write >>= fun k => .ok (true, k)) = .ok (false, k') := h
    obtain ⟨k₁, -, h⟩ := Except.bind_eq_ok.mp h
    cases h
  · obtain ⟨k₁, -, h⟩ := Except.bind_eq_ok.mp h
    obtain ⟨k₂, -, h⟩ := Except.bind_eq_ok.mp h
    cases h

/-- The loop of `writeVirtualMemory` comes to its end, if its addresses are `int`s as long as they
    are in the `n` pages of the process. -/
theorem copyLoop_writes {p n vaddr length : Nat} {data : List UInt8} (hlen : length ≤ data.length)
    (hint : ∀ b < max length 1, vaddr + b ≤ n * pageSize → vaddr + b < 2 ^ 32 ∧ b < 2 ^ 31)
    {fuel : Nat} :
    ∀ {byteNum : Nat} {k : Kernel}, WF .quiet k.view → k.Unpinned → k.view.live p = true →
    k.view.numPages p = n → byteNum < max length 1 → vaddr + byteNum ≤ n * pageSize →
    length - byteNum < fuel →
    ∃ k', copyLoop (verifyVaddr p) (verifyClean p) true p vaddr 0 length fuel byteNum k data =
      .ok (if vaddr + length ≤ n * pageSize then length else 0, k', data) := by
  induction fuel with
  | zero =>
    intro _ _ _ _ _ _ _ _ h
    omega
  | succ fuel ih =>
    intro byteNum k hwf hu hl hn hb hend hfuel
    obtain ⟨haddr, hpos⟩ := hint byteNum hb hend
    have hcast : (vaddr : Int) + (byteNum : Int) = ((vaddr + byteNum : Nat) : Int) := by
      push_cast
      rfl
    have hunsigned : toUnsigned ((vaddr : Int) + byteNum) = vaddr + byteNum := by
      rw [hcast, UserProcess.toUnsigned_natCast haddr]
    have hpage : pageFromAddress ((vaddr : Int) + byteNum) = (vaddr + byteNum) / pageSize := by
      rw [pageFromAddress, hunsigned]
    have hoffset : offsetFromAddress ((vaddr : Int) + byteNum) = (vaddr + byteNum) % pageSize := by
      rw [offsetFromAddress, hunsigned]
    have hdata : wrap32 ((0 : Int) + byteNum) = (byteNum : Nat) := by
      rw [Int.zero_add, UserProcess.wrap32_natCast hpos]
    have hdiv := Nat.div_add_mod (vaddr + byteNum) pageSize
    have hmod := Nat.mod_lt (vaddr + byteNum) (show 0 < pageSize by decide)
    unfold copyLoop
    simp only [hpage, hoffset, hdata]
    generalize (vaddr + byteNum) / pageSize = v at *
    generalize (vaddr + byteNum) % pageSize = off at *
    clear hcast hpage hoffset hdata
    rcases verifyVaddr_spec hwf hu hl v true with h | ⟨hv, k₁, f, h₁, hver⟩
    · -- past the last page
      have hout : n ≤ v := hn ▸ numPages_le_of_verifyVaddr h
      have hmul : n * pageSize ≤ v * pageSize := Nat.mul_le_mul_right _ hout
      have hcomm : pageSize * v = v * pageSize := Nat.mul_comm _ _
      have hresult : (if vaddr + length ≤ n * pageSize then length else 0) = 0 := by
        split
        · omega
        · rfl
      rw [hresult]
      simp only [h, bind, Except.bind]
      exact ⟨k, rfl⟩
    · have hmul : (v + 1) * pageSize ≤ n * pageSize := Nat.mul_le_mul_right _ (hn ▸ hv)
      have hcomm : pageSize * v = v * pageSize := Nat.mul_comm _ _
      rw [Nat.succ_mul] at hmul
      generalize hcount : min (pageSize - off) (length - byteNum) = count
      have hoff : off + count ≤ pageSize := by omega
      have hfits : byteNum + count ≤ data.length := by omega
      obtain ⟨k₂, k₃, h₂, h₃, hc₃, hu₃, hl₃, hn₃⟩ := write_chunk (hver.live ▸ hl)
        (hver.numPages ▸ hv) hver hoff hfits
      have haddr₂ : toUnsigned ((vaddr : Int) + byteNum) = v * pageSize + off := by
        rw [hunsigned]
        omega
      simp only [h₁, haddr₂, h₂, h₃, bind, Except.bind, Bool.not_true, Bool.false_eq_true, if_false]
      split
      · exact ih ((hver.chain.trans hc₃).invariant WF.micro hwf) hu₃ (hl₃ ▸ hver.live ▸ hl)
          (hn₃ ▸ hver.numPages ▸ hn) (by omega) (by omega) (by omega)
      · have hwhole : byteNum + count = length := by omega
        rw [hwhole, if_pos (by omega)]
        exact ⟨k₃, rfl⟩

theorem wrap32_le (x : Nat) : wrap32 x ≤ x := by
  unfold wrap32
  rw [Int.bmod_def]
  omega

/-- What a write returns, if its addresses are `int`s as long as they are in pages. -/
theorem writeVirtualMemory_result (hwf : WF .quiet k.view) (hu : k.Unpinned) {p : Nat}
    (hl : k.isLive p = true) {vaddr : Int} {length : Nat} {data : List UInt8}
    (hlen : length ≤ data.length)
    (hint : Admitted (k.process p).numPages vaddr → ∀ b < max length 1,
      vaddr.toNat + b ≤ (k.process p).numPages * pageSize →
      vaddr.toNat + b < 2 ^ 32 ∧ b < 2 ^ 31) :
    ∃ k', k.writeVirtualMemory p vaddr data 0 length =
      .ok (writeResult (k.process p).numPages vaddr length, k', data) := by
  have hwrap := wrap32_le length
  unfold writeVirtualMemory copyVirtualMemory writeResult
  rw [if_neg (by rw [Int.zero_add]; omega)]
  by_cases had : Admitted (k.process p).numPages vaddr
  · -- an admitted address lies within the pages, also when the limit has wrapped
    have hlimit : wrap32 ((k.process p).numPages * (pageSize - 1 : Nat)) ≤
        (k.process p).numPages * pageSize := by
      have hle := wrap32_le ((k.process p).numPages * (pageSize - 1))
      rw [Int.natCast_mul] at hle
      have hmul : (k.process p).numPages * (pageSize - 1) ≤ (k.process p).numPages * pageSize :=
        Nat.mul_le_mul_left _ (Nat.sub_le _ _)
      have hcast : (((k.process p).numPages * (pageSize - 1) : Nat) : Int) ≤
        ((k.process p).numPages * pageSize : Nat) := Int.ofNat_le.mpr hmul
      rw [Int.natCast_mul, Int.natCast_mul] at hcast
      exact Int.le_trans hle hcast
    obtain ⟨hpos, hlt⟩ := had
    obtain ⟨v, rfl⟩ := Int.eq_ofNat_of_zero_le hpos
    have hv : v + 0 ≤ (k.process p).numPages * pageSize := by
      have : (v : Int) ≤ ((k.process p).numPages * pageSize : Nat) := by
        rw [Int.natCast_mul]
        omega
      omega
    have hint' := hint ⟨hpos, hlt⟩
    simp only [Int.toNat_natCast] at hint'
    obtain ⟨k', h⟩ := copyLoop_writes (n := (k.process p).numPages) hlen hint' hwf hu hl rfl
      (show 0 < max length 1 from Nat.lt_of_lt_of_le Nat.one_pos (Nat.le_max_right _ _)) hv
      (Nat.lt_succ_self _)
    rw [Nat.sub_zero] at h
    rw [if_neg (by omega), Int.toNat_natCast, h]
    -- the loop counts everything or nothing, by whether the write stays inside
    have hresult : (if Admitted (k.process p).numPages (v : Int) ∧
        (v : Int) + length ≤ ((k.process p).numPages * pageSize : Nat) then length else 0) =
        if v + length ≤ (k.process p).numPages * pageSize then length else 0 :=
      if_congr ⟨fun h => by omega, fun h => ⟨⟨hpos, hlt⟩, by omega⟩⟩ rfl rfl
    rw [hresult]
    exact ⟨k', rfl⟩
  · have hbounds : vaddr < 0 ∨
        wrap32 ((k.process p).numPages * (pageSize - 1 : Nat)) ≤ vaddr := by
      unfold Admitted at had
      omega
    rw [if_pos hbounds, if_neg fun h => had h.1]
    exact ⟨k, rfl⟩

/-- `writeVirtualMemory` where there is no read-only page. -/
theorem write_safe (hs : Sheltered k) {p : Nat} (hl : k.isLive p = true) {vaddr : Int}
    {data : List UInt8} {length : Nat} (hvaddr : vaddr < 2 ^ 31) (hlen : length ≤ data.length)
    (hdata : data.length < 2 ^ 31)
    (hclear : Admitted (k.process p).numPages vaddr → vmProcess.Clear k p vaddr length) :
    ∃ k', k.writeVirtualMemory p vaddr data 0 length =
        .ok (writeResult (k.process p).numPages vaddr length, k', data) ∧
      Safe vmProcess Sheltered p k k' := by
  have hint : Admitted (k.process p).numPages vaddr → ∀ b < max length 1,
      vaddr.toNat + b ≤ (k.process p).numPages * pageSize →
      vaddr.toNat + b < 2 ^ 32 ∧ b < 2 ^ 31 := by
    intro had b hb _
    have hpos := had.1
    constructor
    · omega
    · omega
  obtain ⟨k', h⟩ := writeVirtualMemory_result hs.wf hs.unpinned hl hlen hint
  refine ⟨k', h, copyVirtualMemory_safe hs hl (fun hpos hlt _ byteNum hb hpage => ?_) h⟩
  rw [Int.toNat_natCast] at hb
  obtain ⟨v, rfl⟩ := Int.eq_ofNat_of_zero_le hpos
  have hcast : (v : Int) + (byteNum : Int) = ((v + byteNum : Nat) : Int) := by
    push_cast
    rfl
  have hpageFrom : pageFromAddress ((v : Int) + byteNum) = (v + byteNum) / pageSize := by
    rw [hcast, pageFromAddress, UserProcess.toUnsigned_natCast (by omega)]
  rw [hpageFrom] at hpage ⊢
  exact hclear ⟨hpos, hlt⟩ (v + byteNum) (by omega) (by omega) hpage

/-! ## Loading -/

/-- The sections of a contiguous executable end at its last page. -/
theorem lt_of_covers {sections : List CoffSection} :
    ∀ {first n : Nat}, coffPages first sections = some n →
    first ≤ n ∧ ∀ s ∈ sections, ∀ v, s.covers v = true → v < n := by
  induction sections with
  | nil =>
    intro first n h
    cases h
    exact ⟨Nat.le_refl _, nofun⟩
  | cons s rest ih =>
    intro first n h
    simp only [coffPages, ne_eq, ite_not] at h
    split at h
    · rename_i hfirst
      obtain ⟨hle, hrest⟩ := ih h
      refine ⟨by omega, fun s' hs' v hv => ?_⟩
      rcases List.mem_cons.mp hs' with rfl | hs'
      · simp only [CoffSection.covers, decide_eq_true_eq] at hv
        omega
      · exact hrest s' hs' v hv
    · cases h

/-- An executable with `int`s in its section headers has less than `2 ^ 22` pages. -/
theorem coffPages_le {sections : List CoffSection} (hvpn : ∀ s ∈ sections, s.firstVPN < 2 ^ 21)
    (hsize : ∀ s ∈ sections, s.size < 2 ^ 31) :
    ∀ {first n : Nat}, coffPages first sections = some n → n ≤ max first (2 ^ 22) := by
  induction sections with
  | nil =>
    intro first n h
    cases h
    exact Nat.le_max_left _ _
  | cons s rest ih =>
    intro first n h
    have hfirst := hvpn s List.mem_cons_self
    have hlast := hsize s List.mem_cons_self
    have hpages : s.numPages ≤ 2 ^ 21 := by
      unfold CoffSection.numPages pageSize
      omega
    simp only [coffPages, ne_eq, ite_not] at h
    split at h
    · have hn := ih (fun s' hs' => hvpn s' (List.mem_cons_of_mem _ hs'))
        (fun s' hs' => hsize s' (List.mem_cons_of_mem _ hs')) h
      omega
    · cases h

/-- The read-only pages of a new process are pages of its sections. -/
theorem lt_of_readOnly {sections : List CoffSection} {n numPages v : Nat}
    (h : coffPages 0 sections = some n)
    (hro : ((loadSections numPages sections).pageTable v).readOnly = true) : v < n := by
  simp only [loadSections, mapSections] at hro
  split at hro
  · rename_i s hfind
    have hcovers := List.find?_some hfind
    exact (lt_of_covers h).2 s (List.mem_reverse.mp (List.mem_of_find?_eq_some hfind)) v hcovers
  · cases hro

theorem process_load {sections : List CoffSection} {n : Nat} (h : coffPages 0 sections = some n)
    (q : Nat) : (k.load sections).process q =
      if q = k.numProcesses then loadSections (n + stackPages + 1) sections else k.process q := by
  simp only [load, h, Function.update_apply]

/-- A new process is in order, and the others stay as they are. -/
theorem load_sheltered (hs : Sheltered k) {sections : List CoffSection} {n : Nat}
    (h : coffPages 0 sections = some n) :
    Sheltered (k.load sections) ∧ Kept vmProcess k (k.load sections) := by
  obtain ⟨hchain, hu⟩ := load_chain hs.unpinned sections
  have hold : ∀ q, q ≠ k.numProcesses → (k.load sections).process q = k.process q := by
    intro q hq
    rw [process_load h, if_neg hq]
  have hnew : (k.load sections).process k.numProcesses =
      loadSections (n + stackPages + 1) sections := by
    rw [process_load h, if_pos rfl]
  have htlb : (k.load sections).tlb = k.tlb := by simp only [load, h]
  have htrace : (k.load sections).trace = k.trace := by simp only [load, h]
  have ht : (k.load sections).EmptyTlb := by
    intro i
    rw [htlb]
    exact hs.emptyTlb i
  have hev : NoLoss (k.load sections).trace := htrace ▸ hs.noLoss
  have hclean : ∀ p v, ((k.load sections).pte p v).readOnly = true →
      ((k.load sections).pte p v).dirty = false := by
    intro p v hro
    by_cases hp : p = k.numProcesses
    · rw [hp, pte, hnew]
      rfl
    · simp only [pte, hold p hp] at hro ⊢
      exact hs.clean p v hro
  have hs' : Sheltered (k.load sections) := by
    refine ⟨hchain.invariant WF.micro hs.wf, hu, ht, hev, hclean, fun p v hl hv hro => ?_⟩
    by_cases hp : p = k.numProcesses
    · -- no page of the new process is in memory yet
      subst hp
      have hcoff : ((k.load sections).process k.numProcesses).numCoffPages = n := by
        rw [hnew]
        show n + stackPages + 1 - (stackPages + 1) = n
        omega
      rw [pte, hnew] at hro
      refine ⟨?_, fun f j hin _ => ?_, fun f hph => ?_⟩
      · show v < ((k.load sections).process k.numProcesses).numCoffPages
        rw [hcoff]
        exact lt_of_readOnly h hro
      · have hvalid : ((k.load sections).pte k.numProcesses v).valid = true := hin.valid
        rw [pte, hnew] at hvalid
        cases hvalid
      · cases hph
    · have hl₀ : k.isLive p = true := by
        simpa only [isLive, hold p hp] using hl
      have hro₀ := hro
      simp only [pte, hold p hp] at hro₀
      rw [hold p hp] at hv
      exact (hs.intact p v hl₀ hv hro₀).chain hchain hs.wf (coherent_of_emptyTlb hs.emptyTlb)
        (hs.wf.lt_of_live hl₀) (untouched_of_clean ht (hclean p v hro)) hev
  refine ⟨hs', kept_of_sheltered hs hs' hchain ?_ ?_ ?_⟩
  · intro q hq hl
    simpa only [isLive, hold q (Nat.ne_of_lt hq)] using hl
  · intro q hq
    rw [hold q (Nat.ne_of_lt hq)]
  · intro q hq v
    rw [pte, hold q (Nat.ne_of_lt hq), pte]

/-! ## The arguments -/

/-- An assertion that holds: the bytes are in the pages of the process. -/
theorem fits_of_assertWritten (hwf : WF .quiet k.view) (hu : k.Unpinned) {p : Nat}
    (hl : k.isLive p = true) {vaddr : Int} {data : List UInt8} (hne : data ≠ [])
    (hint : Admitted (k.process p).numPages vaddr → ∀ b : Nat,
      vaddr.toNat + b ≤ (k.process p).numPages * pageSize →
      vaddr.toNat + b < 2 ^ 32 ∧ b < 2 ^ 31)
    (h : k.assertWritten p vaddr data = .ok k') :
    Admitted (k.process p).numPages vaddr ∧
      vaddr + data.length ≤ ((k.process p).numPages * pageSize : Nat) := by
  obtain ⟨k₁, hwrite⟩ := writeVirtualMemory_result hwf hu hl (Nat.le_refl data.length)
    fun had b _ => hint had b
  obtain ⟨⟨n, k₂, data₂⟩, hwrite', h⟩ := Except.bind_eq_ok.mp h
  have heq := Except.ok.inj (hwrite.symm.trans hwrite')
  obtain rfl : writeResult (k.process p).numPages vaddr data.length = n := congrArg Prod.fst heq
  dsimp only at h
  split at h
  · rename_i hall
    unfold writeResult at hall
    split at hall
    · assumption
    · exact absurd (List.length_eq_zero_iff.mp hall.symm) hne
  · cases h

/-- Page `n - 1` is the last page of `p`. -/
structure ArgumentPage (k : Kernel) (p n : Nat) : Prop where
  live : k.isLive p = true
  numPages : (k.process p).numPages = n
  pos : 0 < n
  le : n ≤ 2 ^ 22 + stackPages + 1

/-- An address of the last page that is let through has not overflowed. -/
theorem eq_of_admitted {n d : Nat} (hpos : 0 < n) (hn : n ≤ 2 ^ 22 + stackPages + 1)
    (hd : d ≤ 2 * pageSize) (h : Admitted n (wrap32 ((n - 1 : Nat) * pageSize + d : Nat))) :
    wrap32 ((n - 1 : Nat) * pageSize + d : Nat) = ((n - 1) * pageSize + d : Nat) ∧
      n * pageSize < 2 ^ 31 + 2 * pageSize := by
  obtain ⟨h₀, h₁⟩ := h
  simp only [wrap32, Int.bmod_def, pageSize, stackPages] at *
  have hquot : (n : Int) * (1024 - 1 : Nat) / 4294967296 = 0 :=
    Int.ediv_eq_zero_of_lt (by omega) (by omega)
  -- with more pages the limit would be negative
  have hpages : n * 1023 < 2 ^ 31 := by
    have hlimit := Int.lt_of_le_of_lt h₀ h₁
    clear h₀ h₁ hd
    omega
  clear h₁
  omega

theorem last_page {n : Nat} (hpos : 0 < n) : n * pageSize = (n - 1) * pageSize + pageSize := by
  rw [← Nat.succ_mul, Nat.succ_eq_add_one, Nat.sub_add_cancel hpos]

/-- Bytes that are stored at the last page are in the last page. -/
theorem fits_of_argumentPage (hwf : WF .quiet k.view) (hu : k.Unpinned) {p n d : Nat}
    (ha : ArgumentPage k p n) (hd : d ≤ 2 * pageSize) {data : List UInt8} (hne : data ≠ [])
    (h : k.assertWritten p (wrap32 ((n - 1 : Nat) * pageSize + d : Nat)) data = .ok k') :
    d + data.length ≤ pageSize := by
  have hlast := last_page ha.pos
  obtain ⟨had, hfits⟩ := fits_of_assertWritten hwf hu ha.live hne (fun had b hb => by
    rw [ha.numPages] at had hb
    obtain ⟨heq, hlt⟩ := eq_of_admitted ha.pos ha.le hd had
    rw [heq, Int.toNat_natCast] at hb ⊢
    have hend : (n - 1) * pageSize + d + b < 2 ^ 31 + 2 * pageSize := Nat.lt_of_le_of_lt hb hlt
    have hsmall : b ≤ pageSize := by omega
    have hsize : 2 ^ 31 + 2 * pageSize < 2 ^ 32 ∧ pageSize < 2 ^ 31 := by decide
    exact ⟨Nat.lt_trans hend hsize.1, Nat.lt_of_le_of_lt hsmall hsize.2⟩) h
  rw [ha.numPages] at had hfits
  obtain ⟨heq, -⟩ := eq_of_admitted ha.pos ha.le hd had
  rw [heq] at hfits
  omega

/-- What is stored at the last page touches no read-only page. -/
theorem assertWritten_safe (hs : Sheltered k) {p n d : Nat} (ha : ArgumentPage k p n)
    (hro : ∀ v, n - 1 ≤ v → (k.pte p v).readOnly = false) (hd : d ≤ pageSize) {data : List UInt8}
    (h : k.assertWritten p (wrap32 ((n - 1 : Nat) * pageSize + d : Nat)) data = .ok k') :
    Safe vmProcess Sheltered p k k' ∧ d + data.length ≤ pageSize := by
  have hfits : d + data.length ≤ pageSize := by
    cases data with
    | nil => exact hd
    | cons b bytes => exact fits_of_argumentPage hs.wf hs.unpinned ha (by omega) (by simp) h
  refine ⟨?_, hfits⟩
  have hdata : data.length < 2 ^ 31 := by
    simp only [pageSize] at hfits
    omega
  obtain ⟨k₁, hwrite, hsafe⟩ := write_safe hs ha.live (ProcessClass.wrap32_lt _)
    (Nat.le_refl data.length) hdata fun had a hle _ _ => by
      rw [ha.numPages] at had
      obtain ⟨heq, -⟩ := eq_of_admitted ha.pos ha.le
        (show d ≤ 2 * pageSize from Nat.le_trans hd (by decide)) had
      rw [heq] at hle
      -- an address from there on is in the last page or past it
      apply hro
      rw [Nat.le_div_iff_mul_le (by decide)]
      omega
  obtain ⟨⟨r, k₂, data₂⟩, hwrite', h⟩ := Except.bind_eq_ok.mp h
  have heq := Except.ok.inj (hwrite.symm.trans hwrite')
  obtain rfl : k₁ = k₂ := congrArg (fun x => x.2.1) heq
  dsimp only at h
  split at h
  · cases h
    exact hsafe
  · cases h

theorem wrap32_wrap32_add (x y : Nat) : wrap32 (wrap32 x + y) = wrap32 (x + y : Nat) := by
  unfold wrap32
  rw [Int.bmod_add_bmod, Int.natCast_add]

theorem wrap32_wrap32_four (x d : Nat) :
    wrap32 (wrap32 (x + d : Nat) + 4) = wrap32 (x + (d + 4) : Nat) :=
  (wrap32_wrap32_add (x + d) 4).trans (by rw [Nat.add_assoc])

theorem wrap32_wrap32_one (x d : Nat) :
    wrap32 (wrap32 (x + d : Nat) + 1) = wrap32 (x + (d + 1) : Nat) :=
  (wrap32_wrap32_add (x + d) 1).trans (by rw [Nat.add_assoc])

/-- The processes that stay keep the number of their pages. -/
theorem numPages_of_chain (h : Chain (.quiet, k.view) (.quiet, k'.view)) {p : Nat}
    (hp : p < k.numProcesses) (hl : k'.isLive p = true) :
    (k'.process p).numPages = (k.process p).numPages := by
  have hinv : p < k'.view.numProcesses ∧ (k'.view.live p = true →
      k'.view.numPages p = k.view.numPages p) := by
    refine h.invariant (I := fun _ m => p < m.numProcesses ∧ (m.live p = true →
      m.numPages p = k.view.numPages p)) ?_ ⟨hp, fun _ => rfl⟩
    rintro ph m ph' m' hm ⟨hlt, hsame⟩
    refine ⟨Nat.lt_of_lt_of_le hlt hm.config.1, fun hl => ?_⟩
    obtain ⟨hl₀, hn⟩ := hm.live_of hlt hl
    exact hn.trans (hsame hl₀)
  exact hinv.2 hl

theorem writeVirtualMemory_chain (hwf : WF .quiet k.view) (hu : k.Unpinned) {p n : Nat}
    (hl : k.isLive p = true) {vaddr offset length : Int} {data data' : List UInt8}
    (h : k.writeVirtualMemory p vaddr data offset length = .ok (n, k', data')) :
    Chain (.quiet, k.view) (.quiet, k'.view) ∧ k'.Unpinned ∧ k'.census = k.census := by
  have hout := copyVirtualMemory_chain hwf hu hl true vaddr data offset length
  unfold writeVirtualMemory at h
  rw [h] at hout
  exact ⟨hout.1, hout.2, census_copyVirtualMemory h⟩

theorem ArgumentPage.assertWritten (hwf : WF .quiet k.view) (hu : k.Unpinned) {p n : Nat}
    (ha : ArgumentPage k p n) {vaddr : Int} {data : List UInt8}
    (h : k.assertWritten p vaddr data = .ok k') :
    WF .quiet k'.view ∧ k'.Unpinned ∧ ArgumentPage k' p n := by
  obtain ⟨⟨r, k₁, data₁⟩, hwrite, h⟩ := Except.bind_eq_ok.mp h
  obtain ⟨hchain, hu₁, hcensus⟩ := writeVirtualMemory_chain hwf hu ha.live hwrite
  dsimp only at h
  split at h
  · cases h
    have hl : k'.isLive p = true :=
      (congrFun (congrArg Prod.fst hcensus) p).trans ha.live
    have hpages := numPages_of_chain hchain (hwf.lt_of_live ha.live) hl
    exact ⟨hchain.invariant WF.micro hwf, hu₁, hl, hpages.trans ha.numPages, ha.pos, ha.le⟩
  · cases h

/-- The entries of the arguments are four bytes each, and all of them are in the last page. -/
theorem entries_fit {p n : Nat} {args : List (List UInt8)} :
    ∀ {d : Nat} {stringOffset : Int} {k : Kernel}, WF .quiet k.view → k.Unpinned →
    ArgumentPage k p n → d ≤ pageSize →
    storeArguments p args (wrap32 ((n - 1 : Nat) * pageSize + d : Nat)) stringOffset k = .ok k' →
    d + 4 * args.length ≤ pageSize := by
  induction args with
  | nil =>
    intro d stringOffset k _ _ _ hd _
    exact hd
  | cons arg rest ih =>
    intro d stringOffset k hwf hu ha hd h
    obtain ⟨k₁, h₁, h⟩ := Except.bind_eq_ok.mp h
    obtain ⟨k₂, h₂, h⟩ := Except.bind_eq_ok.mp h
    obtain ⟨k₃, h₃, h⟩ := Except.bind_eq_ok.mp h
    have hentry := fits_of_argumentPage hwf hu ha (by omega) (by simp [UserProcess.bytesFromInt]) h₁
    have hlen : ∀ x, (UserProcess.bytesFromInt x).length = 4 := fun _ => rfl
    rw [hlen] at hentry
    obtain ⟨hwf₁, hu₁, ha₁⟩ := ha.assertWritten hwf hu h₁
    obtain ⟨hwf₂, hu₂, ha₂⟩ := ha₁.assertWritten hwf₁ hu₁ h₂
    obtain ⟨hwf₃, hu₃, ha₃⟩ := ha₂.assertWritten hwf₂ hu₂ h₃
    rw [wrap32_wrap32_four] at h
    have hrest := ih hwf₃ hu₃ ha₃ hentry h
    rw [List.length_cons]
    omega

/-- Storing the arguments touches no read-only page. -/
theorem storeArguments_safe {p n : Nat} {args : List (List UInt8)} :
    ∀ {d e : Nat} {k : Kernel}, Sheltered k → ArgumentPage k p n →
    (∀ v, n - 1 ≤ v → (k.pte p v).readOnly = false) → d ≤ pageSize → e ≤ pageSize →
    storeArguments p args (wrap32 ((n - 1 : Nat) * pageSize + d : Nat))
      (wrap32 ((n - 1 : Nat) * pageSize + e : Nat)) k = .ok k' →
    Safe vmProcess Sheltered p k k' := by
  induction args with
  | nil =>
    intro d e k hs ha _ _ _ h
    cases h
    exact Safe.refl hs ha.live
  | cons arg rest ih =>
    intro d e k hs ha hro hd he h
    have hnext : ∀ k k' : Kernel, Sheltered k → ArgumentPage k p n →
        (∀ v, n - 1 ≤ v → (k.pte p v).readOnly = false) → Safe vmProcess Sheltered p k k' →
        ArgumentPage k' p n ∧ ∀ v, n - 1 ≤ v → (k'.pte p v).readOnly = false := by
      intro k k' hs ha hro hsafe
      have hlt := hs.wf.lt_of_live ha.live
      refine ⟨⟨hsafe.live, ?_, ha.pos, ha.le⟩, fun v hv => ?_⟩
      · exact (hsafe.kept.numPages p hlt hsafe.live).trans ha.numPages
      · exact (hsafe.kept.readOnly p hlt hsafe.live v).trans (hro v hv)
    obtain ⟨k₁, h₁, h⟩ := Except.bind_eq_ok.mp h
    obtain ⟨k₂, h₂, h⟩ := Except.bind_eq_ok.mp h
    obtain ⟨k₃, h₃, h⟩ := Except.bind_eq_ok.mp h
    obtain ⟨hsafe₁, hentry⟩ := assertWritten_safe hs ha hro hd h₁
    obtain ⟨ha₁, hro₁⟩ := hnext k k₁ hs ha hro hsafe₁
    obtain ⟨hsafe₂, hstring⟩ := assertWritten_safe hsafe₁.inv ha₁ hro₁ he h₂
    obtain ⟨ha₂, hro₂⟩ := hnext k₁ k₂ hsafe₁.inv ha₁ hro₁ hsafe₂
    rw [wrap32_wrap32_add, Nat.add_assoc] at h₃ h
    rw [wrap32_wrap32_four, wrap32_wrap32_one] at h
    obtain ⟨hsafe₃, hend⟩ := assertWritten_safe hsafe₂.inv ha₂ hro₂ hstring h₃
    obtain ⟨ha₃, hro₃⟩ := hnext k₂ k₃ hsafe₂.inv ha₂ hro₂ hsafe₃
    have hsafe := ih hsafe₃.inv ha₃ hro₃ hentry hend h
    exact ((hsafe₁.trans hsafe₂).trans hsafe₃).trans hsafe

/-- `load` of a new `VMProcess`. -/
theorem execute_kept (hs : Sheltered k) {executable : Option CoffFile} {args : List (List UInt8)}
    (h : k.execute executable args = .ok (.runs k')) : Sheltered k' ∧ Kept vmProcess k k' := by
  unfold execute at h
  split at h
  · cases h
  rename_i file
  split at h
  · cases h
  rename_i n hn
  split at h
  · cases h
  obtain ⟨k₁, hstore, h⟩ := Except.bind_eq_ok.mp h
  cases h
  obtain ⟨hs₀, hkept⟩ := load_sheltered hs hn
  -- the arguments go to the last page of the new process, which no section reaches
  have hnew : (k.load file.coff.sections).process k.numProcesses =
      loadSections (n + stackPages + 1) file.coff.sections := by
    rw [process_load hn, if_pos rfl]
  have hle := coffPages_le file.firstVPN_lt file.size_lt hn
  have ha : ArgumentPage (k.load file.coff.sections) k.numProcesses (n + stackPages + 1) := by
    refine ⟨?_, ?_, by omega, by omega⟩
    · rw [isLive, hnew]
      rfl
    · rw [hnew]
      rfl
  have hro : ∀ v, n + stackPages + 1 - 1 ≤ v →
      ((k.load file.coff.sections).pte k.numProcesses v).readOnly = false := by
    intro v hv
    rw [pte, hnew]
    by_contra hcon
    have := lt_of_readOnly hn (Bool.not_eq_false _ ▸ hcon)
    omega
  -- the two addresses as the source computes them, wrapped after each operation
  have hentry : wrap32 (((n + stackPages + 1 : Nat) - 1) * (pageSize : Int)) =
      wrap32 ((n + stackPages + 1 - 1 : Nat) * pageSize + 0 : Nat) := by
    have hpages : ((n + stackPages + 1 : Nat) : Int) - 1 = (n + stackPages + 1 - 1 : Nat) := by
      omega
    rw [hpages]
    generalize n + stackPages + 1 - 1 = m
    rw [Nat.add_zero, Int.natCast_mul]
  have hstring : wrap32 (wrap32 ((n + stackPages + 1 - 1 : Nat) * pageSize + 0 : Nat) +
      args.length * 4) =
      wrap32 ((n + stackPages + 1 - 1 : Nat) * pageSize + 4 * args.length : Nat) := by
    have hbytes : (args.length : Int) * 4 = (4 * args.length : Nat) := by omega
    rw [hbytes]
    generalize n + stackPages + 1 - 1 = m
    rw [wrap32_wrap32_add, Nat.add_zero]
  rw [hentry, hstring] at hstore
  have hfit := entries_fit hs₀.wf hs₀.unpinned ha (Nat.zero_le _) hstore
  have hsafe := storeArguments_safe hs₀ ha hro (Nat.zero_le _) (by omega) hstore
  exact ⟨hsafe.inv, hkept.trans hsafe.kept⟩

/-! ## Exit -/

/-- A process that exits leaves the pages of the others as they are. -/
theorem exit_kept (hs : Sheltered k) {p : Nat} (hcur : k.current = some p)
    (h : k.handleExit p = .ok k') : Sheltered k' ∧ Kept vmProcess k k' := by
  have hout := handleExit_chain hs.wf hs.unpinned hcur
  rw [h] at hout
  have hcalm := calm_handleExit hs.emptyTlb h
  have hcensus := congrArg Prod.fst (census_handleExit h)
  have hlive : ∀ q, k'.isLive q = true → k.isLive q = true := by
    intro q hl
    have hq : k'.isLive q = Function.update k.isLive p false q := congrFun hcensus q
    rw [hl, Function.update_apply] at hq
    split at hq
    · cases hq
    · exact hq.symm
  have hs' := hs.calm hout.1 hout.2 hcalm hlive
  exact ⟨hs', kept_of_sheltered hs hs' hout.1 (fun q _ => hlive q) (fun q _ => hcalm.numPages q)
    fun q _ v => hcalm.readOnly q v⟩

/-- The same of the method that the handlers call. -/
theorem vmWrite_safe (hs : Sheltered k) {p : Nat} (hl : vmProcess.isLive k p = true) {vaddr : Int}
    {data : List UInt8} {length : Nat} (hvaddr : vaddr < 2 ^ 31) (hlen : length ≤ data.length)
    (hdata : data.length < 2 ^ 31)
    (hclear : Admitted (vmProcess.numPages k p) vaddr → vmProcess.Clear k p vaddr length) :
    ∃ k', vmProcess.writeVirtualMemory k p vaddr data 0 length =
        .ok (writeResult (vmProcess.numPages k p) vaddr length, k') ∧
      Safe vmProcess Sheltered p k k' := by
  obtain ⟨k', h, hsafe⟩ := write_safe hs hl hvaddr hlen hdata hclear
  refine ⟨k', ?_, hsafe⟩
  show (k.writeVirtualMemory p vaddr data 0 length >>= fun r => .ok (r.1, r.2.1)) = _
  rw [h]
  rfl

/-- The methods of `VMProcess` keep the contract. -/
theorem vmProcess_contract : Contract vmProcess Sheltered where
  live_lt hs hl := hs.wf.lt_of_live hl
  restoreState hs hl := ⟨_, contextSwitch_safe hs hl⟩
  readVirtualMemory := by
    intro k k' p vaddr data offset length n data' hs hl h
    exact copyVirtualMemory_safe hs hl
      (fun _ _ (hwrite : false = true) => absurd hwrite Bool.false_ne_true) h
  writeVirtualMemory hs hl hvaddr hlen hdata hclear :=
    vmWrite_safe hs hl hvaddr hlen hdata hclear
  execute hs := execute_kept hs
  handleExit := by
    intro k k₁ k' p hs hl hrestore h
    obtain ⟨hrestore', hsafe⟩ := contextSwitch_safe hs hl
    obtain rfl := Except.ok.inj (hrestore'.symm.trans hrestore)
    obtain ⟨hs', hkept⟩ := exit_kept hsafe.inv rfl h
    exact ⟨hs', hsafe.kept.trans hkept⟩

end Kernel

end Nachos
