import Coursework.Nachos.Files
import Coursework.Nachos.Spec.UserCalls

/-!
# Reading and writing files in pieces

`handleRead` and `handleWrite` move a buffer of a process in pieces of `buffSize` bytes. On
a disk file, and with a buffer at addresses that the memory methods admit, the pieces add
up to one transfer: of the whole buffer to the file, and of what the file has left, up to
the size of the buffer, to the process.
-/

namespace Nachos

open ProcessClass (buffSize Admitted)

/-! ## Disk files -/

namespace HostFile

/-- Only the bytes that are written matter. -/
theorem write_congr (f : HostFile) {pos n : Nat} {buf buf' : Nat → UInt8}
    (h : ∀ i < n, buf i = buf' i) : f.write pos n buf = f.write pos n buf' := by
  have hblit : blit f.bytes pos n buf = blit f.bytes pos n buf' := by
    funext a
    simp only [blit]
    split
    · exact h _ (by omega)
    · rfl
  simp only [write, Int.toNat_natCast]
  rw [hblit]

/-- Two writes, one after the other, are one write. -/
theorem write_write (f : HostFile) (pos m n : Nat) (buf : Nat → UInt8) :
    (f.write pos m buf).write (pos + m : Nat) n (fun i => buf (m + i)) =
      f.write pos (m + n) buf := by
  have hpos : ¬ (pos : Int) < 0 := by omega
  have hnext : ¬ ((pos + m : Nat) : Int) < 0 := by omega
  have hbytes : blit (blit f.bytes pos m buf) (pos + m) n (fun i => buf (m + i)) =
      blit f.bytes pos (m + n) buf := by
    funext a
    simp only [blit]
    by_cases hsecond : pos + m ≤ a ∧ a < pos + m + n
    · rw [if_pos hsecond, if_pos (by omega)]
      congr 1
      omega
    · rw [if_neg hsecond]
      by_cases hfirst : pos ≤ a ∧ a < pos + m
      · rw [if_pos hfirst, if_pos (by omega)]
      · rw [if_neg hfirst, if_neg (by omega)]
  have hlength : max (max f.length (pos + m)) (pos + m + n) = max f.length (pos + (m + n)) := by
    omega
  simp only [write, hpos, hnext, if_false, Int.toNat_natCast]
  rw [hbytes, hlength]

/-- One transfer of `n` bytes to the file at `pos`. A transfer of no bytes is no call. -/
def receive (f : HostFile) (pos n : Nat) (buf : Nat → UInt8) : HostFile :=
  if n = 0 then f else f.write pos n buf

/-- A piece, and then a transfer of what is left. -/
theorem receive_append (f : HostFile) (pos n : Nat) {m : Nat} (hm : 0 < m) {buf piece : Nat → UInt8}
    (hpiece : ∀ i < m, piece i = buf i) :
    (f.write pos m piece).receive (pos + m) n (fun i => buf (m + i)) =
      f.receive pos (m + n) buf := by
  have hwhole : f.receive pos (m + n) buf = f.write pos (m + n) buf := if_neg (by omega)
  rw [hwhole, write_congr f hpiece]
  unfold receive
  by_cases hn : n = 0
  · rw [if_pos hn, hn, Nat.add_zero]
  · rw [if_neg hn, write_write]

end HostFile

namespace UserProcess

/-! ## Pieces -/

/-- The bytes `f 0 .. f (n-1)` are at the virtual addresses from `a` on, and nothing else is
    different. -/
structure Placed (pageTable : List TranslationEntry) (a : Nat) (f : Nat → UInt8) (n : Nat)
    (memory memory' : Nat → UInt8) : Prop where
  inside : ∀ i < n, ∀ x, translate pageTable (a + i) = some x → memory' x = f i
  outside : ∀ x, (∀ i < n, translate pageTable (a + i) ≠ some x) → memory' x = memory x

variable {s : Machine} {p : Nat} {image : Image}

theorem Placed.none (pageTable : List TranslationEntry) (a : Nat) (f : Nat → UInt8)
    (memory : Nat → UInt8) : Placed pageTable a f 0 memory memory :=
  ⟨fun i hi => absurd hi (Nat.not_lt_zero i), fun _ _ => rfl⟩

theorem Placed.of_written {pageTable : List TranslationEntry} {a n : Nat} {f : Nat → UInt8}
    {data : List UInt8} {memory memory' : Nat → UInt8}
    (h : Written pageTable a 0 data 0 n memory memory') (hf : ∀ i < n, data.getD i 0 = f i) :
    Placed pageTable a f n memory memory' where
  inside i hi x hx := by
    rw [h.inside i (Nat.zero_le i) hi x hx, Nat.zero_add]
    exact hf i hi
  outside x hx := h.outside x fun i _ hi => hx i hi

/-- Two pieces, one after the other. -/
theorem Placed.append {numPhysPages : Nat} {pageTable : List TranslationEntry}
    (hm : Mapped numPhysPages pageTable) {a m n : Nat} {f : Nat → UInt8}
    {memory memory₁ memory₂ : Nat → UInt8} (h₁ : Placed pageTable a f m memory memory₁)
    (h₂ : Placed pageTable (a + m) (fun i => f (m + i)) n memory₁ memory₂) :
    Placed pageTable a f (m + n) memory memory₂ where
  inside i hi x hx := by
    by_cases him : i < m
    · -- the second piece is somewhere else
      have hkept : memory₂ x = memory₁ x := by
        refine h₂.outside x fun j hj hxj => ?_
        have hsame := translate_inj hm hx hxj
        omega
      rw [hkept, h₁.inside i him x hx]
    · have hindex : a + m + (i - m) = a + i := by omega
      have hbyte : m + (i - m) = i := by omega
      have hlast := h₂.inside (i - m) (by omega) x (by rw [hindex]; exact hx)
      rw [hbyte] at hlast
      exact hlast
  outside x hx := by
    have hfirst : memory₁ x = memory x := h₁.outside x fun i hi => hx i (by omega)
    have hsecond : memory₂ x = memory₁ x := by
      refine h₂.outside x fun i hi hxi => hx (m + i) (by omega) ?_
      rw [← Nat.add_assoc]
      exact hxi
    rw [hsecond, hfirst]

/-- The machine with another memory. -/
def Machine.setMemory (s : Machine) (memory : Nat → UInt8) : Machine :=
  { s with frames := { s.frames with memory := memory } }

/-- The limit that both methods compare an address with. -/
def limit (image : Image) : Nat := image.pageTable.length * (pageSize - 1)

theorem limit_le (image : Image) : limit image ≤ image.pageTable.length * pageSize :=
  Nat.mul_le_mul_left _ (Nat.sub_le _ _)

/-- One piece is written below the limit. A piece of no bytes can be anywhere. -/
theorem write_piece (hs : InOrder s) (hp : s.process p = some image) {a n : Nat}
    (ha : a + n ≤ limit image) {buffer : List UInt8} (hbuffer : buffer.length = buffSize)
    (hn : n ≤ buffSize) :
    ∃ memory', userProcess.writeVirtualMemory s p a buffer 0 n =
        .ok (n, s.setMemory memory') ∧
      Placed image.pageTable a (fun i => buffer.getD i 0) n s.frames.memory memory' := by
  have hm := hs.mapped p image hp
  have hint := hm.size_lt hs.array
  have hlen : buffer.length < 2 ^ 31 := by
    rw [hbuffer]
    decide
  have hle := limit_le image
  have hcall : ∃ memory', writeVirtualMemory s.frames.numPhysPages image.pageTable
      s.frames.memory a buffer 0 n = .ok (n, memory') ∧
      Placed image.pageTable a (fun i => buffer.getD i 0) n s.frames.memory memory' := by
    by_cases hlimit : a < limit image
    · obtain ⟨memory', hrun, hwritten⟩ :=
        @writtenWhole_of_lt _ _ hm hint s.frames.memory a 0 n buffer
        hlimit (by omega) (by omega) hlen
      exact ⟨memory', hrun, Placed.of_written hwritten fun _ _ => rfl⟩
    · -- at the limit itself only a piece of no bytes is left
      obtain rfl : n = 0 := by omega
      have hrefused : Refused image.pageTable a 0 (0 : Nat) buffer.length := by
        unfold Refused
        unfold limit at hlimit
        omega
      exact ⟨s.frames.memory, writeVirtualMemory_refused hint _ hrefused, Placed.none _ _ _ _⟩
  obtain ⟨memory', hrun, hplaced⟩ := hcall
  refine ⟨memory', ?_, hplaced⟩
  simp only [userProcess, hp, hrun]
  rfl

/-- One piece is read below the limit. -/
theorem read_piece (hs : InOrder s) (hp : s.process p = some image) {a n : Nat}
    (ha : a + n ≤ limit image) (hpos : 0 < n) {buffer : List UInt8}
    (hbuffer : buffer.length = buffSize) (hn : n ≤ buffSize) :
    ∃ buffer', userProcess.readVirtualMemory s p a buffer 0 n = .ok (n, s, buffer') ∧
      buffer'.length = buffSize ∧
      ∀ i < n, some (buffer'.getD i 0) = userProcess.byteAt s p (a + i) := by
  have hm := hs.mapped p image hp
  have hint := hm.size_lt hs.array
  have hlen : buffer.length < 2 ^ 31 := by
    rw [hbuffer]
    decide
  have hle := limit_le image
  have hlimit : a < limit image := by omega
  -- a piece of the range is itself a range that is read as a whole
  obtain ⟨buffer', hrun, hinto⟩ := @readWhole_of_lt _ _ hm hint s.frames.memory a 0 n buffer
    hlimit (by omega) (by omega) hlen
  refine ⟨buffer', ?_, hinto.size.trans hbuffer, fun i hi => ?_⟩
  · have hrun : readVirtualMemory s.frames.numPhysPages image.pageTable s.frames.memory a buffer 0
        n = .ok (n, buffer') := hrun
    simp only [userProcess, hp, hrun]
    rfl
  · obtain ⟨e, -, htr⟩ := translate_of_lt image.pageTable (x := a + i) (by omega)
    have hbyte := hinto.inside i (Nat.zero_le i) hi _ htr
    rw [Nat.zero_add] at hbyte
    rw [byteAt_eq hp, htr, List.getD_eq_getElem?_getD, hbyte]
    rfl

/-! ## The loops -/

theorem wrap32_add {a m : Nat} (h : a + m < 2 ^ 31) :
    wrap32 ((a : Int) + m) = ((a + m : Nat) : Int) := by
  have hcast : (a : Int) + m = ((a + m : Nat) : Int) := by
    push_cast
    rfl
  rw [hcast, wrap32_natCast h]

/-- The array after `read(buffer, 0, toRead)`. -/
theorem read_buffer (file : OpenFile) (disk : HostFile) {buffer : List UInt8} {n : Nat}
    (hbuffer : buffer.length = buffSize) (hn : n ≤ buffSize) :
    (file.read disk buffer 0 n).2.1.length = buffSize ∧
      ∀ i < min n (disk.length - file.position),
        (file.read disk buffer 0 n).2.1.getD i 0 = disk.bytes (file.position + i) := by
  constructor
  · simp only [OpenFile.read, List.take_zero, List.nil_append, List.length_append, List.length_map,
      List.length_range, List.length_drop]
    omega
  · intro i hi
    simp only [OpenFile.read, List.take_zero, List.nil_append]
    rw [List.getD_eq_getElem?_getD, List.getElem?_append_left (by simpa using hi)]
    simp [List.getElem?_range hi]

/-- The loop of `handleRead`: what is left of the file, up to the size of the buffer, is put
    in the buffer, and the position is behind it. -/
theorem handleRead_loop {disk : HostFile} : ∀ {fuel : Nat} {file : OpenFile} {a r : Nat}
    {total : Int} {buffer : List UInt8} {s : Machine}, InOrder s → s.process p = some image →
    r < fuel → a + r ≤ limit image → buffer.length = buffSize →
    ∃ memory', Files.readLoop userProcess p disk fuel file a r total buffer s =
        .ok (total + (min r (disk.length - file.position) : Nat),
          { file with position := file.position + min r (disk.length - file.position) },
          s.setMemory memory') ∧
      Placed image.pageTable a (fun i => disk.bytes (file.position + i))
        (min r (disk.length - file.position)) s.frames.memory memory' := by
  intro fuel
  induction fuel with
  | zero =>
    intro file a r total buffer s _ _ hfuel
    omega
  | succ fuel ih =>
    intro file a r total buffer s hs hp hfuel hlimit hbuffer
    unfold Files.readLoop
    by_cases hr : r = 0
    · subst hr
      rw [if_pos (by omega), Nat.zero_min]
      exact ⟨s.frames.memory, by simp [Machine.setMemory], Placed.none _ _ _ _⟩
    rw [if_neg (by omega)]
    dsimp only
    have hbuff : 0 < buffSize := by decide
    obtain ⟨hlength, hbytes⟩ := read_buffer file disk hbuffer
      (Nat.min_le_left buffSize (r : Int).toNat)
    generalize htoRead : min buffSize (r : Int).toNat = toRead at *
    have hamount : (file.read disk buffer 0 toRead).1 =
        min toRead (disk.length - file.position) := rfl
    have hfile : (file.read disk buffer 0 toRead).2.2 =
        { file with position := file.position + min toRead (disk.length - file.position) } := rfl
    generalize file.read disk buffer 0 toRead = result at *
    obtain ⟨read, buffer₁, file₁⟩ := result
    dsimp only at hlength hbytes hamount hfile ⊢
    subst hamount hfile
    generalize hm : min toRead (disk.length - file.position) = m at *
    obtain ⟨memory₁, hwrite, hplaced⟩ := write_piece hs hp (a := a) (n := m) (by omega) hlength
      (by omega)
    have hfirst : Placed image.pageTable a (fun i => disk.bytes (file.position + i)) m
        s.frames.memory memory₁ :=
      ⟨fun i hi x hx => (hplaced.inside i hi x hx).trans (hbytes i hi), hplaced.outside⟩
    rw [hwrite]
    by_cases hshort : m < toRead
    · -- the file ends in this piece
      have hall : min r (disk.length - file.position) = m := by omega
      rw [hall]
      refine ⟨memory₁, ?_, hfirst⟩
      show (if m ≠ m then _ else if m < toRead then _ else _) = _
      rw [if_neg (by omega), if_pos hshort]
    · have hend : a + m ≤ limit image := by omega
      have hnext : wrap32 ((a : Int) + m) = ((a + m : Nat) : Int) := wrap32_add <|
        Nat.lt_of_le_of_lt (Nat.le_trans hend (limit_le image))
          ((hs.mapped p image hp).size_lt hs.array)
      have hrest : (r : Int) - m = ((r - m : Nat) : Int) := by omega
      have hsum : min r (disk.length - file.position) =
          m + min (r - m) (disk.length - (file.position + m)) := by
        omega
      have hfuel' : r - m < fuel := by omega
      have hlimit' : a + m + (r - m) ≤ limit image := by
        have hmr : m ≤ r := by omega
        rw [Nat.add_assoc, Nat.add_sub_cancel' hmr]
        exact hlimit
      obtain ⟨memory₂, hrun, hsecond⟩ := @ih { file with position := file.position + m }
        (a + m) (r - m) (total + m) buffer₁ _ (hs.setMemory memory₁) hp hfuel' hlimit' hlength
      refine ⟨memory₂, ?_, ?_⟩
      · show (if m ≠ m then _ else if m < toRead then _ else _) = _
        rw [if_neg (by omega), if_neg hshort, hnext, hrest]
        refine hrun.trans ?_
        have htotal : total + (m : Int) +
            (min (r - m) (disk.length - (file.position + m)) : Nat) =
            total + (min r (disk.length - file.position) : Nat) := by
          omega
        have hposition : file.position + m + min (r - m) (disk.length - (file.position + m)) =
            file.position + min r (disk.length - file.position) := by
          omega
        dsimp only
        rw [htotal, hposition]
        rfl
      · rw [hsum]
        refine hfirst.append (hs.mapped p image hp) ?_
        have hbytes₂ : (fun i => disk.bytes (file.position + (m + i))) =
            fun i => disk.bytes (file.position + m + i) := by
          funext i
          rw [Nat.add_assoc]
        rw [hbytes₂]
        exact hsecond

/-- The loop of `handleWrite`: the buffer is written to the file, and the position is behind
    it. -/
theorem handleWrite_loop {s : Machine} (hs : InOrder s) (hp : s.process p = some image) :
    ∀ {fuel : Nat} {disk : HostFile} {file : OpenFile} {a r : Nat} {total : Int}
    {buffer : List UInt8}, r < fuel → a + r ≤ limit image → buffer.length = buffSize →
    Files.writeLoop userProcess p fuel disk file a r total buffer s =
      .ok (total + r,
        disk.receive file.position r fun i => (userProcess.byteAt s p (a + i)).getD 0,
        { file with position := file.position + r }, s) := by
  intro fuel
  induction fuel with
  | zero =>
    intro disk file a r total buffer hfuel
    omega
  | succ fuel ih =>
    intro disk file a r total buffer hfuel hlimit hbuffer
    unfold Files.writeLoop
    by_cases hr : r = 0
    · subst hr
      rw [if_pos (by omega)]
      simp [HostFile.receive]
    rw [if_neg (by omega)]
    dsimp only
    have hbuff : 0 < buffSize := by decide
    rw [Int.toNat_natCast]
    generalize htoWrite : min buffSize r = m at *
    obtain ⟨buffer₁, hread, hlength, hbytes⟩ := read_piece hs hp (a := a) (n := m) (by omega)
      (by omega) hbuffer (by omega)
    rw [hread]
    have hmr : m ≤ r := by omega
    have hend : a + m ≤ limit image := by omega
    have hnext : wrap32 ((a : Int) + m) = ((a + m : Nat) : Int) := wrap32_add <|
      Nat.lt_of_le_of_lt (Nat.le_trans hend (limit_le image))
        ((hs.mapped p image hp).size_lt hs.array)
    have hrest : (r : Int) - m = ((r - m : Nat) : Int) := by omega
    have hfuel' : r - m < fuel := by omega
    have hlimit' : a + m + (r - m) ≤ limit image := by
      rw [Nat.add_assoc, Nat.add_sub_cancel' hmr]
      exact hlimit
    -- the bytes of this piece are those of the buffer in the process
    have hpiece : ∀ i < m, buffer₁.getD (0 + i) 0 = (userProcess.byteAt s p (a + i)).getD 0 := by
      intro i hi
      rw [Nat.zero_add, ← hbytes i hi]
      rfl
    have hall : (disk.write file.position m fun i => buffer₁.getD (0 + i) 0).receive
        (file.position + m) (r - m) (fun i => (userProcess.byteAt s p (a + m + i)).getD 0) =
        disk.receive file.position r fun i => (userProcess.byteAt s p (a + i)).getD 0 := by
      have happend := disk.receive_append file.position (r - m) (m := m) (by omega) hpiece
      rw [Nat.add_sub_cancel' hmr] at happend
      rw [← happend]
      refine congrArg _ ?_
      funext i
      rw [Nat.add_assoc]
    show (if m ≠ m then _ else if m ≠ m then _ else _) = _
    rw [if_neg (by omega), if_neg (by omega)]
    dsimp only [OpenFile.write]
    rw [hnext, hrest]
    refine (ih hfuel' hlimit' hlength).trans ?_
    have htotal : total + (m : Int) + (r - m : Nat) = total + r := by omega
    have hposition : file.position + m + (r - m) = file.position + r := by omega
    dsimp only
    rw [hall, htotal, hposition]

/-! ## The calls -/

/-- A range of admitted addresses ends at the limit or before. -/
theorem range_of_admitted (hs : InOrder s) (hp : s.process p = some image) {address n : Int}
    (hn : 0 ≤ n)
    (h : ∀ x, address ≤ x → x < address + n → Admitted (userProcess.numPages s p) x) :
    n = 0 ∨ 0 ≤ address ∧ address.toNat + n.toNat ≤ limit image := by
  rw [numPages_eq hp] at h
  have hpages := (hs.mapped p image hp).size_lt hs.array
  by_cases hzero : n = 0
  · exact Or.inl hzero
  · right
    obtain ⟨hfirst, -⟩ := (admitted_iff hpages).mp (h address (by omega) (by omega))
    obtain ⟨-, hlast⟩ := (admitted_iff hpages).mp (h (address + n - 1) (by omega) (by omega))
    refine ⟨hfirst, ?_⟩
    unfold limit
    generalize image.pageTable.length * (pageSize - 1) = l at hlast ⊢
    omega

/-- The bytes of the processes after one process has been written to. -/
theorem byteAt_of_placed (hs : InOrder s) (hp : s.process p = some image) {a n : Nat}
    {f : Nat → UInt8} {memory' : Nat → UInt8} (hend : a + n ≤ limit image)
    (h : Placed image.pageTable a f n s.frames.memory memory') (q x : Nat) :
    userProcess.byteAt (s.setMemory memory') q x =
      if q = p ∧ a ≤ x ∧ x < a + n then some (f (x - a)) else userProcess.byteAt s q x := by
  have hm := hs.mapped p image hp
  by_cases hq : q = p
  · subst hq
    rw [byteAt_eq (s := s.setMemory memory') hp, byteAt_eq hp]
    by_cases hx : a ≤ x ∧ x < a + n
    · have hle := limit_le image
      obtain ⟨e, -, htr⟩ := translate_of_lt image.pageTable (x := x) (by omega)
      have hindex : a + (x - a) = x := by omega
      have hbyte := h.inside (x - a) (by omega) _ (by rw [hindex]; exact htr)
      rw [if_pos ⟨rfl, hx⟩, htr]
      exact congrArg some hbyte
    · rw [if_neg fun hall => hx hall.2]
      cases htr : translate image.pageTable x with
      | none => rfl
      | some b =>
        refine congrArg some (h.outside b fun i hi htr' => hx ?_)
        have hsame := translate_inj hm htr htr'
        omega
  · rw [if_neg fun hall => hq hall.1]
    cases hq' : s.process q with
    | none => simp [userProcess, Machine.setMemory, hq']
    | some image' =>
      rw [byteAt_eq (s := s.setMemory memory') hq', byteAt_eq hq']
      cases htr : translate image'.pageTable x with
      | none => rfl
      | some b =>
        -- the frames of two processes are apart
        refine congrArg some (h.outside b fun i hi htr' => ?_)
        have hout := outside_iff.mp (hs.outside (Ne.symm hq) hp hq' htr)
        obtain ⟨e, he, rfl⟩ := translate_eq_some.mp htr'
        exact hout e (List.mem_of_getElem? he) (frameAddr_div (Nat.mod_lt _ (by decide))).symm

/-- `handleWrite` writes the bytes of the buffer to the file and returns their number, and
    `handleRead` reads what the file has left, up to the size of the buffer, to the buffer, and
    returns its number. Nothing else is different. -/
theorem fileIO_oneTransfer {s : Machine} (hs : InOrder s) {p : Nat}
    (hl : userProcess.isLive s p = true) {t : Files} {fd : Int} {file : OpenFile}
    (hfd : t.descriptor fd = some file) {address n : Int} (hn : 0 ≤ n)
    (hbuffer : ∀ x, address ≤ x → x < address + n →
      Admitted (userProcess.numPages s p) x) :
    (∃ bytes : Nat → UInt8,
      (∀ i < n.toNat, userProcess.byteAt s p (address.toNat + i) = some (bytes i)) ∧
      t.handleWrite userProcess s p fd address n =
        .ok (n, s, (t.setDescriptor fd.toNat
            (some { file with position := file.position + n.toNat })).setDisk file.inode
          ((t.disk file.inode).receive file.position n.toNat bytes))) ∧
    ∃ k memory', k = min n.toNat ((t.disk file.inode).length - file.position) ∧
      t.handleRead userProcess s p fd address n =
        .ok (k, s.setMemory memory',
          t.setDescriptor fd.toNat (some { file with position := file.position + k })) ∧
      ∀ q x, userProcess.byteAt (s.setMemory memory') q x =
        if q = p ∧ address.toNat ≤ x ∧ x < address.toNat + k then
          some ((t.disk file.inode).bytes (file.position + (x - address.toNat)))
        else userProcess.byteAt s q x := by
  obtain ⟨image, hp⟩ := exists_image hl
  have hsize : (List.replicate buffSize (0 : UInt8)).length = buffSize := List.length_replicate
  rcases range_of_admitted hs hp hn hbuffer with rfl | ⟨hpos, hend⟩
  · -- no bytes: neither loop runs
    refine ⟨⟨fun _ => 0, fun i hi => absurd hi (Nat.not_lt_zero i), ?_⟩,
      0, s.frames.memory, (Nat.zero_min _).symm, ?_, fun q x => ?_⟩
    · simp [Files.handleWrite, hfd, Files.writeLoop, HostFile.receive]
      rfl
    · simp [Files.handleRead, hfd, Files.readLoop]
      rfl
    · rw [if_neg (by omega)]
      rfl
  · have haddress : ((address.toNat : Nat) : Int) = address := by omega
    have hnum : ((n.toNat : Nat) : Int) = n := by omega
    constructor
    · refine ⟨fun i => (userProcess.byteAt s p (address.toNat + i)).getD 0, fun i hi => ?_, ?_⟩
      · have hle := limit_le image
        obtain ⟨e, -, htr⟩ := translate_of_lt image.pageTable (x := address.toNat + i) (by omega)
        have hbyte : userProcess.byteAt s p (address.toNat + i) = some _ :=
          (byteAt_eq hp _).trans (congrArg _ htr)
        dsimp only
        rw [hbyte]
        rfl
      · have hloop := @handleWrite_loop _ _ _ hs hp _ (t.disk file.inode) file _ _ 0 _
          (Nat.lt_succ_self n.toNat) hend hsize
        rw [haddress, hnum, Int.zero_add] at hloop
        simp only [Files.handleWrite, hfd]
        show (Files.writeLoop _ _ _ _ _ _ _ _ _ _ >>= _) = _
        rw [hloop]
        rfl
    · obtain ⟨memory', hloop, hplaced⟩ := @handleRead_loop _ _ (t.disk file.inode) _ file _ _ 0 _ _
        hs hp (Nat.lt_succ_self n.toNat) hend hsize
      rw [haddress, hnum, Int.zero_add] at hloop
      refine ⟨_, memory', rfl, ?_, fun q x => ?_⟩
      · simp only [Files.handleRead, hfd]
        show (Files.readLoop _ _ _ _ _ _ _ _ _ _ >>= _) = _
        rw [hloop]
        rfl
      · have hk : address.toNat + min n.toNat ((t.disk file.inode).length - file.position) ≤
            limit image := by
          omega
        exact byteAt_of_placed hs hp hk hplaced q x

/-- A process with ten pages, and nothing else. -/
def tenPages : Machine where
  frames := ⟨10, fun _ => 0, []⟩
  process := fun q => if q = 0 then some ⟨10, firstFrames 10, 0, 0, 0, 0⟩ else none
  numProcesses := 1

theorem inOrder_tenPages : InOrder tenPages where
  array := by decide
  free := ⟨fun _ h => absurd h List.not_mem_nil, List.nodup_nil⟩
  mapped p image h := by
    simp only [tenPages] at h
    split at h
    · obtain rfl := Option.some.inj h
      exact ⟨by decide, by decide⟩
    · cases h
  apart p q image image' hpq h h' := by
    simp only [tenPages] at h h'
    split at h
    · rename_i hp
      rw [if_neg fun hq => hpq (hp.trans hq.symm)] at h'
      cases h'
    · cases h
  notFree _ _ _ _ _ := List.not_mem_nil
  fresh p hp := if_neg (Nat.ne_of_gt hp)

/-- Descriptor 2 is open on a file of 5000 bytes. -/
def longFile : Files where
  fileDescriptors := fun fd => if fd = 2 then some ⟨⟨0, []⟩, 0, 0⟩ else none
  disk := fun _ => ⟨fun i => UInt8.ofNat i, 5000⟩
  strings := 1

/-- A transfer of 6000 bytes takes two pieces, and the file ends in the second. -/
theorem fileIO_oneTransfer_twoPieces :
    (∃ bytes : Nat → UInt8,
      (∀ i < (6000 : Int).toNat,
        userProcess.byteAt tenPages 0 ((100 : Int).toNat + i) = some (bytes i)) ∧
      longFile.handleWrite userProcess tenPages 0 2 100 6000 =
        .ok (6000, tenPages, (longFile.setDescriptor (2 : Int).toNat
            (some { (⟨⟨0, []⟩, 0, 0⟩ : OpenFile) with position := 0 + (6000 : Int).toNat })).setDisk 0
          ((longFile.disk 0).receive 0 (6000 : Int).toNat bytes))) ∧
    ∃ k memory', k = min (6000 : Int).toNat ((longFile.disk 0).length - 0) ∧
      longFile.handleRead userProcess tenPages 0 2 100 6000 =
        .ok (k, tenPages.setMemory memory',
          longFile.setDescriptor (2 : Int).toNat
            (some { (⟨⟨0, []⟩, 0, 0⟩ : OpenFile) with position := 0 + k })) ∧
      ∀ q x, userProcess.byteAt (tenPages.setMemory memory') q x =
        if q = 0 ∧ (100 : Int).toNat ≤ x ∧ x < (100 : Int).toNat + k then
          some ((longFile.disk 0).bytes (0 + (x - (100 : Int).toNat)))
        else userProcess.byteAt tenPages q x := by
  have hlimit : wrap32 ((10 : Nat) * (pageSize - 1 : Nat)) = 10230 := by decide
  exact @fileIO_oneTransfer _ inOrder_tenPages 0 rfl longFile 2 ⟨⟨0, []⟩, 0, 0⟩ rfl 100 6000
    (by decide) fun x hlow hhigh => ⟨by omega, lt_of_lt_of_eq (by omega) hlimit.symm⟩

end UserProcess

end Nachos
