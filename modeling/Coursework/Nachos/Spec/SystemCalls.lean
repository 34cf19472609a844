import Coursework.Nachos.SystemCalls
import Coursework.ForStd.Except

/-!
# Read-only pages over a class of processes

What it takes for the read-only pages of all processes to keep their bytes, whichever class the
processes are of. `Contract` is what a class has to say about its own methods: where a write goes,
what it returns, and that nothing else touches a read-only page. From it follows, for every
handler and then for every run, that the pages keep their bytes as long as each call is
`Harmless`.
-/

namespace Nachos

namespace ProcessClass

variable {σ : Type} (C : ProcessClass σ)

/-! ## Pages that keep their bytes -/

/-- The processes that are there after a change were there before, with the same pages, and their
    read-only pages have the same bytes. -/
structure Kept (s s' : σ) : Prop where
  numProcesses_le : C.numProcesses s ≤ C.numProcesses s'
  live : ∀ p < C.numProcesses s, C.isLive s' p = true → C.isLive s p = true
  numPages : ∀ p < C.numProcesses s, C.isLive s' p = true → C.numPages s' p = C.numPages s p
  readOnly : ∀ p < C.numProcesses s, C.isLive s' p = true → ∀ v,
    C.readOnly s' p v = C.readOnly s p v
  byteAt : ∀ p < C.numProcesses s, C.isLive s' p = true → ∀ a, a / pageSize < C.numPages s p →
    C.readOnly s p (a / pageSize) = true → C.byteAt s' p a = C.byteAt s p a

variable {C}

theorem Kept.refl (s : σ) : C.Kept s s :=
  ⟨Nat.le_refl _, fun _ _ h => h, fun _ _ _ => rfl, fun _ _ _ _ => rfl, fun _ _ _ _ _ _ => rfl⟩

theorem Kept.trans {s₁ s₂ s₃ : σ} (h : C.Kept s₁ s₂) (h' : C.Kept s₂ s₃) : C.Kept s₁ s₃ := by
  have hlt : ∀ p < C.numProcesses s₁, p < C.numProcesses s₂ := fun p hp =>
    Nat.lt_of_lt_of_le hp h.numProcesses_le
  have hmid : ∀ p < C.numProcesses s₁, C.isLive s₃ p = true → C.isLive s₂ p = true :=
    fun p hp => h'.live p (hlt p hp)
  refine ⟨Nat.le_trans h.numProcesses_le h'.numProcesses_le, ?_, ?_, ?_, ?_⟩
  · intro p hp hl
    exact h.live p hp (hmid p hp hl)
  · intro p hp hl
    exact (h'.numPages p (hlt p hp) hl).trans (h.numPages p hp (hmid p hp hl))
  · intro p hp hl v
    exact (h'.readOnly p (hlt p hp) hl v).trans (h.readOnly p hp (hmid p hp hl) v)
  · intro p hp hl a ha hro
    have hmid' := hmid p hp hl
    rw [← h.byteAt p hp hmid' a ha hro]
    apply h'.byteAt p (hlt p hp) hl
    · rw [h.numPages p hp hmid']
      exact ha
    · rw [h.readOnly p hp hmid']
      exact hro

/-- A handler of `p` has left the state in order, and `p` is still there. -/
structure Safe (C : ProcessClass σ) (Inv : σ → Prop) (p : Nat) (s s' : σ) : Prop where
  inv : Inv s'
  kept : C.Kept s s'
  live : C.isLive s' p = true

namespace Safe

variable {Inv : σ → Prop} {p : Nat} {s s₁ s₂ : σ}

theorem refl (hs : Inv s) (hl : C.isLive s p = true) : Safe C Inv p s s := ⟨hs, Kept.refl s, hl⟩

theorem trans (h : Safe C Inv p s s₁) (h' : Safe C Inv p s₁ s₂) : Safe C Inv p s s₂ :=
  ⟨h'.inv, h.kept.trans h'.kept, h'.live⟩

end Safe

/-! ## Where a write goes -/

/-- `writeVirtualMemory` lets this address through. -/
def Admitted (numPages : Nat) (vaddr : Int) : Prop :=
  0 ≤ vaddr ∧ vaddr < wrap32 (numPages * (pageSize - 1 : Nat))

instance (numPages : Nat) (vaddr : Int) : Decidable (Admitted numPages vaddr) := by
  unfold Admitted
  infer_instance

/-- What `writeVirtualMemory` returns. -/
def writeResult (numPages : Nat) (vaddr : Int) (length : Nat) : Nat :=
  if Admitted numPages vaddr ∧ vaddr + length ≤ (numPages * pageSize : Nat) then length else 0

/-- A write of no bytes returns 0, wherever it goes. -/
theorem writeResult_zero (numPages : Nat) (vaddr : Int) : writeResult numPages vaddr 0 = 0 := by
  unfold writeResult
  rw [ite_self]

variable (C)

/-- The `n` bytes from this address on, and the byte at this address, are in no read-only page. -/
def Clear (s : σ) (p : Nat) (vaddr : Int) (n : Nat) : Prop :=
  ∀ a : Nat, vaddr ≤ a → a < vaddr + (max n 1 : Nat) → a / pageSize < C.numPages s p →
    C.readOnly s p (a / pageSize) = false

/-- One of the `n` bytes from this address on is in a read-only page. -/
def Touches (s : σ) (p : Nat) (address : Int) (n : Nat) : Prop :=
  ∃ i < n, toUnsigned (address + i) / pageSize < C.numPages s p ∧
    C.readOnly s p (toUnsigned (address + i) / pageSize) = true

/-- What a class has to say about its methods, in states with the invariant `Inv`. -/
structure Contract (Inv : σ → Prop) : Prop where
  live_lt : ∀ {s p}, Inv s → C.isLive s p = true → p < C.numProcesses s
  restoreState : ∀ {s p}, Inv s → C.isLive s p = true →
    ∃ s', C.restoreState s p = .ok s' ∧ Safe C Inv p s s'
  readVirtualMemory : ∀ {s s' p vaddr data offset length n data'}, Inv s → C.isLive s p = true →
    C.readVirtualMemory s p vaddr data offset length = .ok (n, s', data') → Safe C Inv p s s'
  writeVirtualMemory : ∀ {s p vaddr data} {length : Nat}, Inv s → C.isLive s p = true →
    vaddr < 2 ^ 31 → length ≤ data.length → data.length < 2 ^ 31 →
    (Admitted (C.numPages s p) vaddr → C.Clear s p vaddr length) →
    ∃ s', C.writeVirtualMemory s p vaddr data 0 length =
      .ok (writeResult (C.numPages s p) vaddr length, s') ∧ Safe C Inv p s s'
  execute : ∀ {s s' executable args}, Inv s → C.execute s executable args = .ok (.runs s') →
    Inv s' ∧ C.Kept s s'
  handleExit : ∀ {s s₁ s' p}, Inv s → C.isLive s p = true → C.restoreState s p = .ok s₁ →
    C.handleExit s₁ p = .ok s' → Inv s' ∧ C.Kept s s'

variable {C}

theorem wrap32_lt (x : Int) : wrap32 x < 2 ^ 31 := by
  unfold wrap32
  rw [Int.bmod_def]
  omega

theorem toUnsigned_wrap32_add (x : Int) (i : Nat) :
    toUnsigned (wrap32 x + i) = toUnsigned (x + i) := by
  unfold toUnsigned wrap32
  rw [Int.bmod_def]
  omega

theorem toUnsigned_of_nonneg {x : Int} (h : 0 ≤ x) (hlt : x < 2 ^ 32) : toUnsigned x = x.toNat := by
  unfold toUnsigned
  omega

/-- The first bytes of a buffer that touches no read-only page. -/
theorem clear_of_not_touches {s : σ} {p n remaining : Nat} {address : Int}
    (h : ¬ C.Touches s p address remaining) (hpos : 0 < remaining) (hn : n ≤ remaining)
    (hsize : n ≤ 2 ^ 31) (haddr : 0 ≤ address) (hint : address < 2 ^ 31) :
    C.Clear s p address n := by
  intro a ha ha' hpage
  by_contra hro
  apply h
  obtain ⟨i, hi⟩ : ∃ i : Nat, (a : Int) = address + i := ⟨(a - address).toNat, by omega⟩
  have hunsigned : toUnsigned (address + i) = a := by
    rw [← hi, toUnsigned_of_nonneg (by omega) (by omega), Int.toNat_natCast]
  refine ⟨i, by omega, ?_⟩
  rw [hunsigned]
  exact ⟨hpage, by simpa using hro⟩

/-- The rest of a buffer that touches no read-only page. -/
theorem not_touches_rest {s : σ} {p n remaining : Nat} {address : Int}
    (h : ¬ C.Touches s p address remaining) :
    ¬ C.Touches s p (wrap32 (address + n)) (remaining - n) := by
  rintro ⟨i, hi, hro⟩
  apply h
  refine ⟨n + i, by omega, ?_⟩
  rw [toUnsigned_wrap32_add] at hro
  have hsum : address + ((n + i : Nat) : Int) = address + n + i := by
    push_cast
    omega
  rw [hsum]
  exact hro

/-! ## `read` -/

/-- A call of `read` fails before a piece of the file comes to a read-only page: the file fails,
    or the copy of a piece is refused, or runs past the last page. -/
inductive FailsFirst (C : ProcessClass σ) (s : σ) (p : Nat) :
    List (Option (List UInt8)) → Int → Nat → Prop where
  | fails {answers address remaining} (hpos : 0 < remaining) :
    FailsFirst C s p (none :: answers) address remaining
  | refused {bytes answers address remaining} (hpos : 0 < remaining) (hbytes : bytes ≠ [])
    (hrefused : ¬ Admitted (C.numPages s p) address) :
    FailsFirst C s p (some bytes :: answers) address remaining
  | pastEnd {bytes answers address remaining} (hpos : 0 < remaining) (hbytes : bytes ≠ [])
    (hend : (C.numPages s p * pageSize : Nat) <
      address + (min (min buffSize remaining) bytes.length : Nat))
    (hclear : C.Clear s p address (min (min buffSize remaining) bytes.length)) :
    FailsFirst C s p (some bytes :: answers) address remaining
  | next {bytes answers address remaining} (hpos : 0 < remaining)
    (hwhole : min buffSize remaining ≤ bytes.length)
    (hclear : C.Clear s p address (min buffSize remaining))
    (hrest : FailsFirst C s p answers (wrap32 (address + (min buffSize remaining : Nat)))
      (remaining - min buffSize remaining)) :
    FailsFirst C s p (some bytes :: answers) address remaining

section Handlers

variable {Inv : σ → Prop} (hC : C.Contract Inv) {s : σ} {p : Nat}

include hC

/-- The pages of a process that is still there. -/
theorem Safe.numPages {s' : σ} (h : Safe C Inv p s s') (hs : Inv s) (hl : C.isLive s p = true) :
    C.numPages s' p = C.numPages s p :=
  h.kept.numPages p (hC.live_lt hs hl) h.live

theorem Safe.clear {s' : σ} (h : Safe C Inv p s s') (hs : Inv s) (hl : C.isLive s p = true)
    {vaddr : Int} {n : Nat} : C.Clear s' p vaddr n ↔ C.Clear s p vaddr n := by
  have hlt := hC.live_lt hs hl
  unfold Clear
  rw [h.numPages hC hs hl]
  simp only [h.kept.readOnly p hlt h.live]

theorem Safe.touches {s' : σ} (h : Safe C Inv p s s') (hs : Inv s) (hl : C.isLive s p = true)
    {address : Int} {n : Nat} : C.Touches s' p address n ↔ C.Touches s p address n := by
  have hlt := hC.live_lt hs hl
  unfold Touches
  rw [h.numPages hC hs hl]
  simp only [h.kept.readOnly p hlt h.live]

/-- One piece of a file, copied to where there is no read-only page. -/
theorem readPiece_some (hs : Inv s) (hl : C.isLive s p = true) {address : Int} {toRead n : Nat}
    {buffer : List UInt8} (bytes : List UInt8) (hint : address < 2 ^ 31)
    (hbuffer : buffer.length = buffSize)
    (hread : toRead ≤ buffSize) (hn : min toRead bytes.length = n)
    (hclear : Admitted (C.numPages s p) address → C.Clear s p address n) :
    ∃ s' buffer', C.readPiece s p address toRead buffer (some bytes) =
      .ok (if n = writeResult (C.numPages s p) address n then some n else none, buffer', s') ∧
      buffer'.length = buffSize ∧ Safe C Inv p s s' := by
  have hlen : (bytes.take toRead).length = n := by
    rw [List.length_take]
    exact hn
  have hsize : (bytes.take toRead ++ buffer.drop n).length = buffSize := by
    rw [List.length_append, List.length_drop]
    omega
  have hfits : n ≤ (bytes.take toRead ++ buffer.drop n).length := by omega
  obtain ⟨s', hwrite, hsafe⟩ := hC.writeVirtualMemory hs hl hint hfits (by rw [hsize]; decide) hclear
  refine ⟨s', _, ?_, hsize, hsafe⟩
  simp only [readPiece, hlen, hwrite, bind, Except.bind, ne_eq, ite_not]
  split <;> rfl

/-- A read into a buffer that touches no read-only page returns, and keeps all such pages. -/
theorem readLoop_of_not_touches (answers : List (Option (List UInt8))) :
    ∀ (total : Int) {s : σ} {address : Int} {remaining : Nat} {buffer : List UInt8}, Inv s →
    C.isLive s p = true → address < 2 ^ 31 → buffer.length = buffSize →
    ¬ C.Touches s p address remaining →
    ∃ r s', C.readLoop p answers address remaining total buffer s = .ok (r, s') ∧
      Safe C Inv p s s' := by
  induction answers with
  | nil =>
    intro total s address remaining buffer hs hl hint hbuffer hno
    unfold readLoop
    by_cases hzero : remaining = 0
    · exact ⟨total, s, if_pos hzero, Safe.refl hs hl⟩
    · -- with no answer left the file is at its end, and the piece written is empty
      obtain ⟨s', buffer', hpiece, -, hsafe⟩ := readPiece_some hC hs hl [] hint hbuffer
        (show min buffSize remaining ≤ buffSize from Nat.min_le_left _ _) (Nat.min_zero _)
        fun had => clear_of_not_touches hno (by omega) (by omega) (by omega) had.1 hint
      refine ⟨total, s', ?_, hsafe⟩
      rw [writeResult_zero] at hpiece
      simp only [if_neg hzero, hpiece, if_true, bind, Except.bind]
  | cons answer answers ih =>
    intro total s address remaining buffer hs hl hint hbuffer hno
    unfold readLoop
    by_cases hzero : remaining = 0
    · exact ⟨total, s, if_pos hzero, Safe.refl hs hl⟩
    rw [if_neg hzero]
    cases answer with
    | none => exact ⟨-1, s, rfl, Safe.refl hs hl⟩
    | some bytes =>
      have hread : min buffSize remaining ≤ buffSize := Nat.min_le_left _ _
      have hsmall : buffSize ≤ 2 ^ 31 := by decide
      generalize hn : min (min buffSize remaining) bytes.length = n
      obtain ⟨s', buffer', hpiece, hbuffer', hsafe⟩ :=
        readPiece_some hC hs hl bytes hint hbuffer hread hn
        fun had => clear_of_not_touches hno (by omega) (by omega) (by omega) had.1 hint
      simp only [hpiece, bind, Except.bind]
      by_cases hwhole : n = writeResult (C.numPages s p) address n
      · simp only [if_pos hwhole]
        split
        · exact ⟨total + n, s', rfl, hsafe⟩
        · -- the rest of the transfer covers fewer addresses, so it touches nothing read-only either
          obtain ⟨r, s'', hrest, hsafe'⟩ := ih (total + n) hsafe.inv hsafe.live
            (wrap32_lt _) hbuffer' (mt (hsafe.touches hC hs hl).mp (not_touches_rest hno))
          exact ⟨r, s'', hrest, hsafe.trans hsafe'⟩
      · simp only [if_neg hwhole]
        exact ⟨-1, s', rfl, hsafe⟩

/-- A piece that is not copied as a whole ends the call. -/
theorem readLoop_short (hs : Inv s) (hl : C.isLive s p = true) {bytes : List UInt8}
    (answers : List (Option (List UInt8))) (total : Int) {address : Int} {remaining : Nat}
    {buffer : List UInt8} (hint : address < 2 ^ 31) (hbuffer : buffer.length = buffSize)
    (hpos : 0 < remaining) (hbytes : bytes ≠ [])
    (hshort : ¬ (Admitted (C.numPages s p) address ∧
      address + (min (min buffSize remaining) bytes.length : Nat) ≤
        (C.numPages s p * pageSize : Nat)))
    (hclear : Admitted (C.numPages s p) address →
      C.Clear s p address (min (min buffSize remaining) bytes.length)) :
    ∃ s', C.readLoop p (some bytes :: answers) address remaining total buffer s = .ok (-1, s') ∧
      Safe C Inv p s s' := by
  generalize hn : min (min buffSize remaining) bytes.length = n at *
  have hnpos : 0 < n := by
    have hlen : 0 < bytes.length := List.length_pos_iff.mpr hbytes
    have hsize : 0 < buffSize := by decide
    omega
  obtain ⟨s', buffer', hpiece, -, hsafe⟩ := readPiece_some hC hs hl bytes hint hbuffer
    (Nat.min_le_left _ _) hn hclear
  -- a piece that does not fit counts 0 bytes, and the loop takes that for an error
  have hresult : ¬ n = writeResult (C.numPages s p) address n := by
    rw [writeResult, if_neg hshort]
    omega
  rw [if_neg hresult] at hpiece
  refine ⟨s', ?_, hsafe⟩
  unfold readLoop
  simp only [if_neg (show ¬ remaining = 0 by omega), hpiece, bind, Except.bind]

/-- A read that fails first returns -1, and keeps the read-only pages. -/
theorem readLoop_of_failsFirst (hs : Inv s) (hl : C.isLive s p = true)
    {answers : List (Option (List UInt8))} {address : Int} {remaining : Nat}
    (h : FailsFirst C s p answers address remaining) :
    ∀ {s₁ : σ} (total : Int) {buffer : List UInt8}, Safe C Inv p s s₁ → address < 2 ^ 31 →
    buffer.length = buffSize →
    ∃ s', C.readLoop p answers address remaining total buffer s₁ = .ok (-1, s') ∧
      Safe C Inv p s s' := by
  induction h with
  | fails hpos =>
    intro s₁ total buffer hsafe hint hbuffer
    unfold readLoop
    exact ⟨s₁, if_neg (by omega), hsafe⟩
  | @refused bytes answers address remaining hpos hbytes hrefused =>
    intro s₁ total buffer hsafe hint hbuffer
    rw [← hsafe.numPages hC hs hl] at hrefused
    obtain ⟨s', hrun, hsafe'⟩ := readLoop_short hC hsafe.inv hsafe.live answers total
      hint hbuffer hpos hbytes (fun h => hrefused h.1) fun had => absurd had hrefused
    exact ⟨s', hrun, hsafe.trans hsafe'⟩
  | @pastEnd bytes answers address remaining hpos hbytes hend hclear =>
    intro s₁ total buffer hsafe hint hbuffer
    rw [← hsafe.numPages hC hs hl] at hend
    obtain ⟨s', hrun, hsafe'⟩ := readLoop_short hC hsafe.inv hsafe.live answers total
      hint hbuffer hpos hbytes (fun h => absurd h.2 (by omega))
      fun _ => (hsafe.clear hC hs hl).mpr hclear
    exact ⟨s', hrun, hsafe.trans hsafe'⟩
  | @next bytes answers address remaining hpos hwhole hclear hrest ih =>
    intro s₁ total buffer hsafe hint hbuffer
    obtain ⟨s', buffer', hpiece, hbuffer', hsafe'⟩ := readPiece_some hC hsafe.inv hsafe.live
      bytes hint hbuffer (show min buffSize remaining ≤ buffSize from Nat.min_le_left _ _)
      (show min (min buffSize remaining) bytes.length = min buffSize remaining by omega)
      fun _ => (hsafe.clear hC hs hl).mpr hclear
    unfold readLoop
    simp only [if_neg (show ¬ remaining = 0 by omega), hpiece, bind, Except.bind]
    by_cases hresult : min buffSize remaining =
        writeResult (C.numPages s₁ p) address (min buffSize remaining)
    · -- the piece is copied as a whole, and the call goes on
      simp only [if_pos hresult]
      rw [if_neg (Nat.lt_irrefl _)]
      exact ih (total + (min buffSize remaining : Nat)) (hsafe.trans hsafe') (wrap32_lt _) hbuffer'
    · simp only [if_neg hresult]
      exact ⟨s', rfl, hsafe.trans hsafe'⟩

/-- `handleRead` on a call that may go on: the state before the context switch decides. -/
theorem handleRead_spec (hs : Inv s) (hl : C.isLive s p = true) {s₁ : σ}
    (hsafe : Safe C Inv p s s₁) {file : Option (List (Option (List UInt8)))} {address : Int}
    {numBytes : Int} (hint : address < 2 ^ 31)
    (hread : ∀ answers, file = some answers → ¬ C.Touches s p address numBytes.toNat ∨
      FailsFirst C s p answers address numBytes.toNat) :
    ∃ r s', C.handleRead s₁ p file address numBytes = .ok (r, s') ∧ Safe C Inv p s s' ∧
      (C.Touches s p address numBytes.toNat → r = -1) := by
  cases file with
  | none => exact ⟨-1, s₁, rfl, hsafe, fun _ => rfl⟩
  | some answers =>
    have hbuffer : (List.replicate buffSize (0 : UInt8)).length = buffSize := List.length_replicate
    unfold handleRead
    rcases hread answers rfl with hno | hfails
    · obtain ⟨r, s', hrun, hsafe'⟩ := readLoop_of_not_touches hC answers 0 hsafe.inv hsafe.live
        hint hbuffer (mt (hsafe.touches hC hs hl).mp hno)
      exact ⟨r, s', hrun, hsafe.trans hsafe', fun h => absurd h hno⟩
    · obtain ⟨s', hrun, hsafe'⟩ := readLoop_of_failsFirst hC hs hl hfails 0 hsafe hint
        hbuffer
      exact ⟨-1, s', hrun, hsafe', fun _ => rfl⟩

/-! ## The other handlers -/

theorem readVirtualMemoryString_safe (hs : Inv s) (hl : C.isLive s p = true) {s' : σ} {vaddr : Int}
    {maxLength : Nat} {string : Option (List UInt8)}
    (h : C.readVirtualMemoryString s p vaddr maxLength = .ok (string, s')) : Safe C Inv p s s' := by
  obtain ⟨⟨bytesRead, s₁, bytes⟩, hread, h⟩ := Except.bind_eq_ok.mp h
  cases h
  exact hC.readVirtualMemory hs hl hread

theorem writeLoop_safe {answers : List Int} :
    ∀ {s s' : σ} {address total r : Int} {remaining : Nat} {buffer : List UInt8}, Inv s →
    C.isLive s p = true →
    C.writeLoop p answers address remaining total buffer s = .ok (r, s') → Safe C Inv p s s' := by
  induction answers with
  | nil =>
    intro s s' address total r remaining buffer hs hl h
    unfold writeLoop at h
    split at h
    · cases h
      exact Safe.refl hs hl
    · obtain ⟨⟨read, s₁, buffer₁⟩, hread, h⟩ := Except.bind_eq_ok.mp h
      cases h
      exact hC.readVirtualMemory hs hl hread
  | cons written answers ih =>
    intro s s' address total r remaining buffer hs hl h
    unfold writeLoop at h
    split at h
    · cases h
      exact Safe.refl hs hl
    · obtain ⟨⟨read, s₁, buffer₁⟩, hread, h⟩ := Except.bind_eq_ok.mp h
      have hsafe := hC.readVirtualMemory hs hl hread
      dsimp only at h
      split at h
      · cases h
        exact hsafe
      · split at h
        · cases h
          exact hsafe
        · exact hsafe.trans (ih hsafe.inv hsafe.live h)

theorem readArguments_safe {pointers : List UInt8} {count : Nat} :
    ∀ {s s' : σ} {argNum : Nat} {args : List (Option (List UInt8))}, Inv s → C.isLive s p = true →
    C.readArguments p pointers count argNum s = .ok (args, s') → Safe C Inv p s s' := by
  induction count with
  | zero =>
    intro s s' argNum args hs hl h
    cases h
    exact Safe.refl hs hl
  | succ count ih =>
    intro s s' argNum args hs hl h
    obtain ⟨pointer, -, h⟩ := Except.bind_eq_ok.mp h
    obtain ⟨⟨arg, s₁⟩, hstring, h⟩ := Except.bind_eq_ok.mp h
    obtain ⟨⟨rest, s₂⟩, hrest, h⟩ := Except.bind_eq_ok.mp h
    cases h
    have hsafe := readVirtualMemoryString_safe hC hs hl hstring
    exact hsafe.trans (ih hsafe.inv hsafe.live hrest)

theorem execStrings_safe (hs : Inv s) (hl : C.isLive s p = true) {s' : σ}
    {filenameAddr count argAddr : Int} {filename : Option (List UInt8)}
    {args : List (Option (List UInt8))}
    (h : C.execStrings s p filenameAddr count argAddr = .ok (filename, args, s')) :
    Safe C Inv p s s' := by
  obtain ⟨⟨name, s₁⟩, hstring, h⟩ := Except.bind_eq_ok.mp h
  have hsafe := readVirtualMemoryString_safe hC hs hl hstring
  dsimp only at h
  split at h
  · cases h
  split at h
  · cases h
    exact hsafe
  · obtain ⟨⟨n, s₂, pointers⟩, hread, h⟩ := Except.bind_eq_ok.mp h
    obtain ⟨⟨strings, s₃⟩, hargs, h⟩ := Except.bind_eq_ok.mp h
    cases h
    have hsafe₂ := hC.readVirtualMemory hsafe.inv hsafe.live hread
    exact (hsafe.trans hsafe₂).trans (readArguments_safe hC hsafe₂.inv hsafe₂.live hargs)

theorem executeStrings_kept (hs : Inv s) {s' : σ} {executable : Option CoffFile}
    {args : List (Option (List UInt8))}
    (h : C.executeStrings s executable args = .ok (.runs s')) : Inv s' ∧ C.Kept s s' := by
  unfold executeStrings at h
  split at h
  · exact hC.execute hs h
  · split at h
    · cases h
    · split at h <;> cases h

theorem handleExec_kept (hs : Inv s) (hl : C.isLive s p = true) {s' : σ}
    {filenameAddr count argAddr : Int} {fileSystem : Option (List UInt8) → Option CoffFile}
    {r : Option Int} (h : C.handleExec s p filenameAddr count argAddr fileSystem = .ok (r, s')) :
    Inv s' ∧ C.Kept s s' := by
  unfold handleExec at h
  split at h
  · cases h
    exact ⟨hs, Kept.refl s⟩
  · obtain ⟨⟨filename, args, s₁⟩, hstrings, h⟩ := Except.bind_eq_ok.mp h
    have hsafe := execStrings_safe hC hs hl hstrings
    obtain ⟨execution, hexecute, h⟩ := Except.bind_eq_ok.mp h
    cases execution with
    | refused =>
      cases h
      exact ⟨hsafe.inv, hsafe.kept⟩
    | waits =>
      cases h
      exact ⟨hsafe.inv, hsafe.kept⟩
    | runs s₂ =>
      cases h
      obtain ⟨hinv, hkept⟩ := executeStrings_kept hC hsafe.inv hexecute
      exact ⟨hinv, hsafe.kept.trans hkept⟩

theorem handleJoin_safe (hs : Inv s) (hl : C.isLive s p = true) {s₁ s' : σ}
    (hsafe : Safe C Inv p s s₁) {statusAddress : Int} {found : Option (BitVec 32)} {r : Option Int}
    (hint : statusAddress < 2 ^ 31)
    (hclear : ∀ status, found = some status → status ≠ -2 → status ≠ -1 →
      Admitted (C.numPages s p) statusAddress → C.Clear s p statusAddress 4)
    (h : C.handleJoin s₁ p statusAddress found = .ok (r, s')) : Safe C Inv p s s' := by
  unfold handleJoin at h
  split at h
  · cases h
    exact hsafe
  · rename_i status
    split at h
    · cases h
      exact hsafe
    split at h
    · cases h
      exact hsafe
    · have hfits : 4 ≤ (UserProcess.bytesFromInt status).length := Nat.le_refl 4
      obtain ⟨s₂, hwrite, hsafe₂⟩ := hC.writeVirtualMemory hsafe.inv hsafe.live hint hfits
        (by decide : (4 : Nat) < 2 ^ 31) fun had => (hsafe.clear hC hs hl).mpr
          (hclear status rfl ‹_› ‹_› (hsafe.numPages hC hs hl ▸ had))
      obtain ⟨⟨n, s₃⟩, hwrite', h⟩ := Except.bind_eq_ok.mp h
      have heq := Except.ok.inj (hwrite.symm.trans hwrite')
      cases h
      obtain rfl : s₂ = s' := congrArg Prod.snd heq
      exact hsafe.trans hsafe₂

end Handlers

/-! ## Runs -/

variable (C)

/-- When a call keeps the read-only pages, and is a `read` that returns -1 if its buffer touches
    one: `read` touches no such page or fails first, and `join` writes its status to no such
    page. -/
def Harmless (s : σ) : Call → Prop
  | .read p file address numBytes => C.isLive s p = true → ∀ answers, file = some answers →
    ¬ C.Touches s p address.toInt numBytes.toInt.toNat ∨
      FailsFirst C s p answers address.toInt numBytes.toInt.toNat
  | .join p statusAddress found => C.isLive s p = true → ∀ status, found = some status →
    status ≠ -2 → status ≠ -1 → Admitted (C.numPages s p) statusAddress.toInt →
      C.Clear s p statusAddress.toInt 4
  | _ => True

/-- Every call of the sequence is harmless when its turn comes. -/
def HarmlessRun : σ → List Call → Prop
  | _, [] => True
  | s, call :: calls => C.Harmless s call ∧ ∀ r s', C.step s call = .ok (r, s') →
    HarmlessRun s' calls

/-- The read-only pages of the processes keep their bytes in the run of these calls, and each
    `read` with a buffer that touches one of them returns -1. -/
structure ReadOnlyKept (s₀ : σ) (calls : List Call) : Prop where
  bytes : ∀ before after s s', calls = before ++ after → C.run s₀ before = .ok s →
    C.run s after = .ok s' → ∀ p, C.isLive s p = true → C.isLive s' p = true →
    ∀ a, a / pageSize < C.numPages s p → C.readOnly s p (a / pageSize) = true →
    C.readOnly s' p (a / pageSize) = true ∧ C.byteAt s' p a = C.byteAt s p a
  result : ∀ before after p file address numBytes s,
    calls = before ++ .read p file address numBytes :: after → C.run s₀ before = .ok s →
    C.isLive s p = true → C.Touches s p address.toInt numBytes.toInt.toNat →
    ∃ s', C.step s (.read p file address numBytes) = .ok (some (-1), s')

variable {C}

section Runs

variable {Inv : σ → Prop} (hC : C.Contract Inv) {s : σ}

theorem toInt_lt (x : BitVec 32) : x.toInt < 2 ^ 31 := by
  have := BitVec.toInt_lt (x := x)
  simpa using this

include hC

/-- A handler runs after a context switch. -/
theorem handleSyscall_kept (hs : Inv s) {p : Nat} {s' : σ} {r : Option Int}
    {handler : σ → Except Halt (Option Int × σ)}
    (hhandler : ∀ s₁, C.isLive s p = true → C.restoreState s p = .ok s₁ → Safe C Inv p s s₁ →
      handler s₁ = .ok (r, s') → Inv s' ∧ C.Kept s s')
    (h : C.handleSyscall s p handler = .ok (r, s')) : Inv s' ∧ C.Kept s s' := by
  unfold handleSyscall at h
  split at h
  · rename_i hl
    obtain ⟨s₁, hrestore, hsafe⟩ := hC.restoreState hs hl
    obtain ⟨s₂, hrestore', h⟩ := Except.bind_eq_ok.mp h
    obtain rfl := Except.ok.inj (hrestore.symm.trans hrestore')
    exact hhandler s₁ hl hrestore hsafe h
  · cases h
    exact ⟨hs, Kept.refl s⟩

/-- A harmless call keeps the read-only pages. -/
theorem step_kept (hs : Inv s) {call : Call} (hharmless : C.Harmless s call) {s' : σ}
    {r : Option Int} (h : C.step s call = .ok (r, s')) : Inv s' ∧ C.Kept s s' := by
  -- each call is unpacked into what its handler ran, and the handler keeps the others
  cases call with
  | load executable args =>
    obtain ⟨execution, hexecute, h⟩ := Except.bind_eq_ok.mp h
    cases execution with
    | runs s₁ =>
      cases h
      exact hC.execute hs hexecute
    | refused =>
      cases h
      exact ⟨hs, Kept.refl s⟩
    | waits =>
      cases h
      exact ⟨hs, Kept.refl s⟩
  | exec p filenameAddr count argAddr fileSystem =>
    refine handleSyscall_kept hC hs (fun s₁ hl _ hsafe h => ?_) h
    obtain ⟨hinv, hkept⟩ := handleExec_kept hC hsafe.inv hsafe.live h
    exact ⟨hinv, hsafe.kept.trans hkept⟩
  | join p statusAddress found =>
    refine handleSyscall_kept hC hs (fun s₁ hl _ hsafe h => ?_) h
    have hsafe' := handleJoin_safe hC hs hl hsafe (toInt_lt _) (hharmless hl) h
    exact ⟨hsafe'.inv, hsafe'.kept⟩
  | read p file address numBytes =>
    refine handleSyscall_kept hC hs (fun s₁ hl _ hsafe h => ?_) h
    obtain ⟨r₁, s₂, hrun, hsafe', -⟩ := handleRead_spec hC hs hl hsafe (toInt_lt _) (hharmless hl)
    obtain ⟨⟨r₂, s₃⟩, hrun', h⟩ := Except.bind_eq_ok.mp h
    have heq := Except.ok.inj (hrun.symm.trans hrun')
    cases h
    obtain rfl : s₂ = s' := congrArg Prod.snd heq
    exact ⟨hsafe'.inv, hsafe'.kept⟩
  | write p file address numBytes =>
    refine handleSyscall_kept hC hs (fun s₁ hl _ hsafe h => ?_) h
    obtain ⟨⟨r₁, s₂⟩, hrun, h⟩ := Except.bind_eq_ok.mp h
    cases h
    cases file with
    | none =>
      cases hrun
      exact ⟨hsafe.inv, hsafe.kept⟩
    | some answers =>
      have hsafe' := hsafe.trans (writeLoop_safe hC hsafe.inv hsafe.live hrun)
      exact ⟨hsafe'.inv, hsafe'.kept⟩
  | filename p filenameAddr =>
    refine handleSyscall_kept hC hs (fun s₁ hl _ hsafe h => ?_) h
    obtain ⟨⟨string, s₂⟩, hrun, h⟩ := Except.bind_eq_ok.mp h
    cases h
    have hsafe' := hsafe.trans (readVirtualMemoryString_safe hC hsafe.inv hsafe.live hrun)
    exact ⟨hsafe'.inv, hsafe'.kept⟩
  | exit p =>
    refine handleSyscall_kept hC hs (fun s₁ hl hrestore hsafe h => ?_) h
    obtain ⟨s₂, hexit, h⟩ := Except.bind_eq_ok.mp h
    cases h
    exact hC.handleExit hs hl hrestore hexit

/-- A harmless `read` with a buffer that touches a read-only page returns -1. -/
theorem step_read (hs : Inv s) {p : Nat} {file : Option (List (Option (List UInt8)))}
    {address numBytes : BitVec 32} (hharmless : C.Harmless s (.read p file address numBytes))
    (hl : C.isLive s p = true) (htouches : C.Touches s p address.toInt numBytes.toInt.toNat) :
    ∃ s', C.step s (.read p file address numBytes) = .ok (some (-1), s') := by
  obtain ⟨s₁, hrestore, hsafe⟩ := hC.restoreState hs hl
  obtain ⟨r, s', hrun, -, hresult⟩ :=
    handleRead_spec hC hs hl hsafe (toInt_lt _) (hharmless hl)
  obtain rfl := hresult htouches
  refine ⟨s', ?_⟩
  simp only [step, handleSyscall, if_pos hl, hrestore, hrun, bind, Except.bind]

/-- Harmless calls keep the read-only pages. -/
theorem run_kept {calls : List Call} : ∀ {s s' : σ}, Inv s → C.HarmlessRun s calls →
    C.run s calls = .ok s' → Inv s' ∧ C.Kept s s' := by
  induction calls with
  | nil =>
    intro s s' hs _ h
    obtain rfl : s = s' := by simpa [run, pure, Except.pure] using h
    exact ⟨hs, Kept.refl s⟩
  | cons call calls ih =>
    intro s s' hs hharmless h
    rw [run, List.foldlM_cons] at h
    obtain ⟨s₁, hstep, h⟩ := Except.bind_eq_ok.mp h
    obtain ⟨⟨r, s₂⟩, hstep, heq⟩ := Except.bind_eq_ok.mp hstep
    cases heq
    obtain ⟨hinv, hkept⟩ := step_kept hC hs hharmless.1 hstep
    obtain ⟨hinv', hkept'⟩ := ih hinv (hharmless.2 r s₁ hstep) h
    exact ⟨hinv', hkept.trans hkept'⟩

omit hC in
/-- The calls that are left are harmless in the state that has been reached. -/
theorem HarmlessRun.rest {before after : List Call} : ∀ {s s' : σ},
    C.HarmlessRun s (before ++ after) → C.run s before = .ok s' →
    C.HarmlessRun s before ∧ C.HarmlessRun s' after := by
  induction before with
  | nil =>
    intro s s' hharmless h
    obtain rfl : s = s' := by simpa [run, pure, Except.pure] using h
    exact ⟨trivial, hharmless⟩
  | cons call before ih =>
    intro s s' hharmless h
    rw [run, List.foldlM_cons] at h
    obtain ⟨s₁, hstep, h⟩ := Except.bind_eq_ok.mp h
    obtain ⟨⟨r, s₂⟩, hstep, heq⟩ := Except.bind_eq_ok.mp hstep
    cases heq
    have hrest := ih (hharmless.2 r s₁ hstep) h
    refine ⟨⟨hharmless.1, fun r' s'' hstep' => ?_⟩, hrest.2⟩
    have heq := Except.ok.inj (hstep.symm.trans hstep')
    obtain rfl : s₁ = s'' := congrArg Prod.snd heq
    exact hrest.1

/-- A run of harmless calls keeps the read-only pages of every process from the moment it is
    loaded, and each `read` into one of them returns -1. -/
theorem HarmlessRun.readOnlyKept {s₀ : σ} (hs : Inv s₀) {calls : List Call}
    (hharmless : C.HarmlessRun s₀ calls) : C.ReadOnlyKept s₀ calls where
  bytes before after s s' hcalls hbefore hafter p hl hl' a ha hro := by
    subst hcalls
    obtain ⟨hharmless₁, hharmless₂⟩ := hharmless.rest hbefore
    obtain ⟨hinv, -⟩ := run_kept hC hs hharmless₁ hbefore
    obtain ⟨-, hkept⟩ := run_kept hC hinv hharmless₂ hafter
    have hlt := hC.live_lt hinv hl
    exact ⟨(hkept.readOnly p hlt hl' _).trans hro, hkept.byteAt p hlt hl' a ha hro⟩
  result before after p file address numBytes s hcalls hbefore hl htouches := by
    subst hcalls
    obtain ⟨hharmless₁, hharmless₂⟩ := hharmless.rest hbefore
    obtain ⟨hinv, -⟩ := run_kept hC hs hharmless₁ hbefore
    exact step_read hC hinv hharmless₂.1 hl htouches

end Runs

end ProcessClass

end Nachos
