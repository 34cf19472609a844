import Coursework.Level.Spec.Descriptions

/-!
# The exits of the rooms

Every connection sets an exit of each of its two rooms. The second loop ends with the file, so it
leaves out a last line without a newline.

## Key results

- `exitAt_link`: what one connection sets
- `linkAll_exits`: the exits after connections that do not name an exit twice
- `linked_iff`: when all connections of a file are there
-/

namespace Level

open CStd

def exitAt (rooms : List Room) (i : Nat) (d : Direction) : Option Exit :=
  rooms[i]?.map (·.exits d)

/-- The exits that a connection sets. -/
def Connection.keys (c : Connection) : List (Nat × Direction) :=
  [(c.a.value, c.dir), (c.b.value, flipDirection c.dir)]

def LevelFile.keys (file : LevelFile) : List (Nat × Direction) :=
  file.connections.flatMap Connection.keys

/-- The loader returns; every connection leads from its first room to the second and back, and is
    locked on the way there if the file says so; there are no other exits, and each can be walked
    back. The rooms are read at the moment when `load_level` returns: `room_array` is an array on
    its own stack, and the caller gets a pointer to it. -/
def Linked (file : LevelFile) : Prop :=
  ∃ fuel rooms, loadLevel fuel (some file.bytes) = some (.ok rooms) ∧
    rooms.length = file.count.value ∧
    (∀ c ∈ file.connections,
      exitAt rooms c.a.value c.dir = some ⟨some c.b.value, c.locked⟩ ∧
      exitAt rooms c.b.value (flipDirection c.dir) = some ⟨some c.a.value, false⟩) ∧
    (∀ i < file.count.value, ∀ d, (i, d) ∉ file.keys → exitAt rooms i d = some ⟨none, false⟩) ∧
    ∀ i d j locked, exitAt rooms i d = some ⟨some j, locked⟩ →
      ∃ locked', exitAt rooms j (flipDirection d) = some ⟨some i, locked'⟩

variable {rooms : List Room} {file : LevelFile} {i : Nat} {d : Direction}

theorem flipDirection_flipDirection (d : Direction) : flipDirection (flipDirection d) = d := by
  cases d <;> rfl

theorem flipDirection_ne (d : Direction) : flipDirection d ≠ d := by
  cases d <;> decide

theorem exitAt_modify (hi : i < rooms.length) (j : Nat) (f : Room → Room) :
    exitAt (rooms.modify j f) i d =
      some (if j = i then (f rooms[i]).exits d else rooms[i].exits d) := by
  rw [exitAt, List.getElem?_modify, List.getElem?_eq_getElem hi]
  split <;> rfl

/-- Descriptions leave the exits alone. -/
theorem exitAt_describeRoom (rooms : List Room) (j : Nat) (text : List UInt8) :
    exitAt (describeRoom rooms j text) i d = exitAt rooms i d := by
  by_cases hi : i < rooms.length
  · rw [describeRoom, exitAt_modify hi, exitAt, List.getElem?_eq_getElem hi]
    split <;> rfl
  · have hout : rooms.length ≤ i := Nat.le_of_not_lt hi
    rw [exitAt, exitAt, List.getElem?_eq_none hout,
      List.getElem?_eq_none (by rwa [length_describeRoom])]

theorem exitAt_describeAll (rooms : List Room) (ds : List Description) :
    exitAt (describeAll rooms ds) i d = exitAt rooms i d := by
  induction ds generalizing rooms with
  | nil => rfl
  | cons e ds ih => exact (ih _).trans (exitAt_describeRoom ..)

theorem exitAt_emptyRooms (hi : i < file.count.value) (d : Direction) :
    exitAt file.emptyRooms i d = some ⟨none, false⟩ := by
  rw [exitAt, LevelFile.emptyRooms, List.getElem?_map, List.getElem?_range hi]
  rfl

theorem Room.exits_setDest (room : Room) (dir : Direction) (dest : Nat) (d : Direction) :
    (room.setDest dir dest).exits d =
      if d = dir then ⟨some dest, (room.exits d).locked⟩ else room.exits d := rfl

theorem Room.exits_lock (room : Room) (dir d : Direction) :
    (room.lock dir).exits d = if d = dir then ⟨(room.exits d).dest, true⟩ else room.exits d := rfl

/-- A room after a connection. -/
theorem getElem?_link (hi : i < rooms.length) (dir : Direction) (a b : Nat) (locked : Bool) :
    (link rooms dir a b locked)[i]? = some
      (let room := if a = i then rooms[i].setDest dir b else rooms[i]
       let room := if b = i then room.setDest (flipDirection dir) a else room
       if locked = true ∧ a = i then room.lock dir else room) := by
  by_cases ha : a = i
  · by_cases hb : b = i
    · cases locked <;> simp [link, ha, hb, hi]
    · cases locked <;> simp [link, ha, hb, hi]
  · by_cases hb : b = i
    · cases locked <;> simp [link, ha, hb, hi]
    · cases locked <;> simp [link, ha, hb, hi]

/-- A connection sets its two exits and no other. -/
theorem exitAt_link (hi : i < rooms.length) (dir : Direction) (a b : Nat) (locked : Bool) :
    exitAt (link rooms dir a b locked) i d =
      some (if (i, d) = (a, dir) then ⟨some b, (rooms[i].exits d).locked || locked⟩
        else if (i, d) = (b, flipDirection dir) then ⟨some a, (rooms[i].exits d).locked⟩
        else rooms[i].exits d) := by
  have hflip := flipDirection_ne dir
  rw [exitAt, getElem?_link hi]
  simp only [Option.map_some, Prod.mk.injEq]
  grind [Room.exits_setDest, Room.exits_lock]

theorem exitAt_link_ne (hi : i < rooms.length) (c : Connection) (hd : (i, d) ∉ c.keys) :
    exitAt (link rooms c.dir c.a.value c.b.value c.locked) i d = exitAt rooms i d := by
  have ha : (i, d) ≠ (c.a.value, c.dir) := fun heq => hd (by rw [heq]; exact List.mem_cons_self)
  have hb : (i, d) ≠ (c.b.value, flipDirection c.dir) := by
    intro heq
    apply hd
    rw [heq]
    exact List.mem_cons_of_mem _ List.mem_cons_self
  rw [exitAt_link hi, if_neg ha, if_neg hb, exitAt, List.getElem?_eq_getElem hi]
  rfl

theorem exitAt_linkAll_ne {cs : List Connection} (hi : i < rooms.length)
    (hd : (i, d) ∉ cs.flatMap Connection.keys) :
    exitAt (linkAll rooms cs) i d = exitAt rooms i d := by
  induction cs generalizing rooms with
  | nil => rfl
  | cons c cs ih =>
    rw [List.flatMap_cons, List.mem_append, not_or] at hd
    have hlength : i < (link rooms c.dir c.a.value c.b.value c.locked).length := by
      rwa [length_link]
    exact (ih hlength hd.2).trans (exitAt_link_ne hi c hd.1)

/-- After connections that do not name an exit twice, each has its two exits. -/
theorem linkAll_exits {cs : List Connection} (hkeys : (cs.flatMap Connection.keys).Nodup)
    (hends : ∀ c ∈ cs, c.a.value < rooms.length ∧ c.b.value < rooms.length)
    (hempty : ∀ i d, (i, d) ∈ cs.flatMap Connection.keys → exitAt rooms i d = some ⟨none, false⟩) :
    ∀ c ∈ cs, exitAt (linkAll rooms cs) c.a.value c.dir = some ⟨some c.b.value, c.locked⟩ ∧
      exitAt (linkAll rooms cs) c.b.value (flipDirection c.dir) =
        some ⟨some c.a.value, false⟩ := by
  induction cs generalizing rooms with
  | nil =>
    intro c hc
    cases hc
  | cons c cs ih =>
    rw [List.flatMap_cons, List.nodup_append] at hkeys
    obtain ⟨-, hrest, happart⟩ := hkeys
    have hdisjoint : ∀ {key}, key ∈ c.keys → key ∉ cs.flatMap Connection.keys :=
      fun hkey hmem => happart _ hkey _ hmem rfl
    obtain ⟨ha, hb⟩ := hends c List.mem_cons_self
    have hlength := length_link rooms c.dir c.a.value c.b.value c.locked
    have hkeyA : (c.a.value, c.dir) ∈ c.keys := List.mem_cons_self
    have hkeyB : (c.b.value, flipDirection c.dir) ∈ c.keys :=
      List.mem_cons_of_mem _ List.mem_cons_self
    rw [List.forall_mem_cons]
    constructor
    · -- what this connection sets stays as it is
      have hold : ∀ i d (hi : i < rooms.length), (i, d) ∈ c.keys →
          rooms[i].exits d = ⟨none, false⟩ := by
        intro i d hi hkey
        have hexit := hempty i d (List.mem_append_left _ hkey)
        rw [exitAt, List.getElem?_eq_getElem hi] at hexit
        exact Option.some.inj hexit
      have hne : (c.b.value, flipDirection c.dir) ≠ (c.a.value, c.dir) := by
        intro heq
        exact flipDirection_ne c.dir (Prod.mk.inj heq).2
      constructor
      · refine (exitAt_linkAll_ne (by rwa [hlength]) (hdisjoint hkeyA)).trans ?_
        rw [exitAt_link ha, if_pos rfl, hold _ _ ha hkeyA, Bool.false_or]
      · refine (exitAt_linkAll_ne (by rwa [hlength]) (hdisjoint hkeyB)).trans ?_
        rw [exitAt_link hb, if_neg hne, if_pos rfl, hold _ _ hb hkeyB]
    · apply ih hrest
      · intro e he
        rw [hlength]
        exact hends e (List.mem_cons_of_mem c he)
      · intro i d hkey
        -- the exits of the other connections are as they were
        have hnot : (i, d) ∉ c.keys := fun hmem => hdisjoint hmem hkey
        have hexit := hempty i d (List.mem_append_right _ hkey)
        have hi : i < rooms.length := by
          by_contra hout
          rw [exitAt, List.getElem?_eq_none (Nat.le_of_not_lt hout)] at hexit
          cases hexit
        rw [exitAt_link_ne hi c hnot, hexit]

/-! ## Files -/

theorem key_lt (file : LevelFile) {cs : List Connection} (hcs : cs ⊆ file.connections)
    (hkey : (i, d) ∈ cs.flatMap Connection.keys) : i < file.count.value := by
  obtain ⟨c, hc, hmem⟩ := List.mem_flatMap.1 hkey
  obtain ⟨ha, hb⟩ := file.ends c (hcs hc)
  cases List.mem_cons.1 hmem with
  | inl heq => exact (Prod.mk.inj heq).1 ▸ ha
  | inr hlast => exact (Prod.mk.inj (List.mem_singleton.1 hlast)).1 ▸ hb

theorem exitAt_described (file : LevelFile) (hi : i < file.count.value) (d : Direction) :
    exitAt (describeAll file.emptyRooms file.descriptions) i d = some ⟨none, false⟩ := by
  rw [exitAt_describeAll, exitAt_emptyRooms hi]

theorem length_linkAll (rooms : List Room) (cs : List Connection) :
    (linkAll rooms cs).length = rooms.length := by
  induction cs generalizing rooms with
  | nil => rfl
  | cons c cs ih => exact (ih _).trans (length_link ..)

/-- A file that ends with a newline has all of its exits. -/
theorem linked_of_newline (hkeys : file.keys.Nodup) (hds : file.descriptions ≠ [])
    (hstorable : ∀ d ∈ file.descriptions, d.Storable) (hending : file.ending ≠ .bare) :
    Linked file := by
  have hextra : file.extra = [] ∨ file.extra = [newline] := by
    unfold LevelFile.extra
    split
    · exact .inr rfl
    · exact .inl rfl
  have hload := loadLevel_descriptions hds (connectionLines_all hextra) (List.Subset.refl _)
    (Nat.lt_succ_self _)
  rw [← bytes_eq hending, if_pos hstorable] at hload
  have hlength : (describeAll file.emptyRooms file.descriptions).length = file.count.value := by
    rw [length_describeAll, length_emptyRooms]
  have hexits := linkAll_exits hkeys (ends_lt file (List.Subset.refl _))
    (fun i d hkey => exitAt_described file (key_lt file (List.Subset.refl _) hkey) d)
  have habsent : ∀ i < file.count.value, ∀ d, (i, d) ∉ file.keys →
      exitAt (linkAll (describeAll file.emptyRooms file.descriptions) file.connections) i d =
        some ⟨none, false⟩ := by
    intro i hi d hkey
    rw [exitAt_linkAll_ne (by rwa [hlength]) hkey, exitAt_described file hi]
  refine ⟨_, _, hload, (length_linkAll ..).trans hlength, hexits, habsent, ?_⟩
  intro i d j locked hexit
  have hi : i < file.count.value := by
    by_contra hout
    rw [exitAt, List.getElem?_eq_none (by rw [length_linkAll, hlength]; omega)] at hexit
    cases hexit
  by_cases hkey : (i, d) ∈ file.keys
  · -- the exit is one of the two of a connection, and the other one leads back
    obtain ⟨c, hc, hmem⟩ := List.mem_flatMap.1 hkey
    obtain ⟨hthere, hback⟩ := hexits c hc
    cases List.mem_cons.1 hmem with
    | inl heq =>
      obtain ⟨rfl, rfl⟩ := Prod.mk.inj heq
      obtain rfl : c.b.value = j :=
        Option.some.inj (congrArg Exit.dest (Option.some.inj (hthere.symm.trans hexit)))
      exact ⟨false, hback⟩
    | inr hlast =>
      obtain ⟨rfl, rfl⟩ := Prod.mk.inj (List.mem_singleton.1 hlast)
      obtain rfl : c.a.value = j :=
        Option.some.inj (congrArg Exit.dest (Option.some.inj (hback.symm.trans hexit)))
      rw [flipDirection_flipDirection]
      exact ⟨c.locked, hthere⟩
  · -- no connection names it, so that it is not there
    rw [habsent i hi d hkey] at hexit
    cases congrArg Exit.dest (Option.some.inj hexit)

/-- The lines of the second loop when the last one has no newline. -/
theorem connectionLines_bare (cs : List Connection) (c : Connection) :
    connectionLines (join (cs.map Connection.line) ++ c.line) =
      cs.map fun c => c.line ++ [newline] := by
  apply connectionLines_append
  · cases cs with
    | nil =>
      have hstarts := c.plain.starts []
      rwa [List.append_nil] at hstarts
    | cons e cs =>
      rw [List.map_cons, join_cons, List.append_assoc]
      exact e.plain.starts _
  · have hshort := c.plain.short
    rw [lines_last c.plain.newline_notMem c.plain.ne_nil (Nat.le_of_lt hshort)]
    intro l hl htaken
    obtain rfl : c.line = l := Option.some.inj hl
    cases htaken.2 with
    | inl hmem => exact c.plain.newline_notMem hmem
    | inr hlong => omega

/-- The last line of a file that ends without a newline is left out. -/
theorem not_linked_of_bare (hkeys : file.keys.Nodup) (hds : file.descriptions ≠ [])
    (hending : file.ending = .bare) : ¬ Linked file := by
  intro hlinked
  obtain ⟨fuel, rooms, hload, -, hexits, -⟩ := hlinked
  cases List.eq_nil_or_concat file.connections with
  | inl hnil =>
    -- the last line is the empty line after the descriptions
    have hcan := canLoad_of_ok hload
    have hbytes : file.bytes = file.head.dropLast := by
      rw [LevelFile.bytes, hending, hnil]
      simp [join]
    have hpos : 0 < file.head.length := by
      rw [head_eq, List.length_append, List.length_append, List.length_singleton]
      omega
    apply not_canLoad_head (hbytes ▸ List.dropLast_prefix _) _ hcan
    intro heq
    have hlength := congrArg List.length (hbytes.symm.trans heq)
    rw [List.length_dropLast] at hlength
    omega
  | inr hconcat =>
    obtain ⟨cs, c, hcs⟩ := hconcat
    rw [List.concat_eq_append] at hcs
    have hsub : cs ⊆ file.connections := by
      rw [hcs]
      exact List.subset_append_left cs [c]
    have hc : c ∈ file.connections := by
      rw [hcs]
      exact List.mem_append_right cs List.mem_cons_self
    have hbytes : file.bytes = file.head ++ (join (cs.map Connection.line) ++ c.line) := by
      rw [LevelFile.bytes, hending, hcs]
      simp [join, ← List.append_assoc]
    -- the rooms are those after the other connections
    have hresult := loadLevel_descriptions hds (connectionLines_bare cs c) hsub
      (Nat.lt_succ_self _)
    rw [← hbytes] at hresult
    split at hresult
    · obtain rfl := Except.ok.inj (loadLevel_unique hload hresult)
      have ha := (file.ends c hc).1
      have hlength : c.a.value < (describeAll file.emptyRooms file.descriptions).length :=
        (ends_lt file (List.Subset.refl _) c hc).1
      have hnew : (c.a.value, c.dir) ∉ cs.flatMap Connection.keys := by
        intro hmem
        rw [LevelFile.keys, hcs, List.flatMap_append, List.nodup_append] at hkeys
        exact hkeys.2.2 _ hmem (c.a.value, c.dir) (by simp [Connection.keys]) rfl
      have hexit := (hexits c hc).1
      rw [exitAt_linkAll_ne hlength hnew, exitAt_described file ha] at hexit
      cases congrArg Exit.dest (Option.some.inj hexit)
    · cases loadLevel_unique hload hresult

/-- Without descriptions the connections are read by the first loop, and no room has an exit. -/
theorem not_linked_of_no_descriptions (hds : file.descriptions = []) : ¬ Linked file := by
  intro hlinked
  obtain ⟨fuel, rooms, hload, -, hexits, -⟩ := hlinked
  have hcan := canLoad_of_ok hload
  obtain ⟨hcs, hending, -⟩ := (canLoad_connections hds List.prefix_rfl).1 hcan
  obtain ⟨text, hresult⟩ := loadLevel_connections hds hcs hending (Nat.lt_succ_self _)
  obtain rfl := Except.ok.inj (loadLevel_unique hload hresult)
  obtain ⟨c, cs, hcons⟩ := List.exists_cons_of_ne_nil hcs
  have hc : c ∈ file.connections := by
    rw [hcons]
    exact List.mem_cons_self
  have hexit := (hexits c hc).1
  rw [exitAt_describeRoom, exitAt_emptyRooms (file.ends c hc).1] at hexit
  cases congrArg Exit.dest (Option.some.inj hexit)

/-- The exits of a file that does not name one twice are all there when it has descriptions, they
    can be stored, and its last line ends with a newline. -/
theorem linked_iff (hkeys : file.keys.Nodup) : Linked file ↔
    file.descriptions ≠ [] ∧ (∀ d ∈ file.descriptions, d.Storable) ∧ file.ending ≠ .bare := by
  constructor
  · intro hlinked
    have hds : file.descriptions ≠ [] := fun hnil => not_linked_of_no_descriptions hnil hlinked
    have hending : file.ending ≠ .bare := fun hbare => not_linked_of_bare hkeys hds hbare hlinked
    obtain ⟨fuel, rooms, hload, -⟩ := hlinked
    have hcan := canLoad_of_ok hload
    -- the loader has ended, so that the descriptions could be stored
    cases (canLoad_piece List.prefix_rfl).1 hcan with
    | inl hdescribed => exact ⟨hds, hdescribed.2.1, hending⟩
    | inr hnone => exact absurd hnone.1 hds
  · intro h
    exact linked_of_newline hkeys h.1 h.2.1 h.2.2

/-- The line `cant-go north 0 1`. -/
def northward : Connection := ⟨true, .north, zero, one, by decide⟩

/-- Two rooms, with a locked exit from the first one. -/
def twoRooms (ending : Ending) : LevelFile where
  count := ⟨ascii ['2'], by decide, forall_of_all rfl⟩
  descriptions := [hello]
  connections := [northward]
  ending := ending
  short := by decide
  int := by decide
  ids := List.forall_mem_singleton.2 (by decide)
  ends := List.forall_mem_singleton.2 (by decide)

theorem linked_iff_twoRooms : (twoRooms .newline).keys.Nodup ∧ Linked (twoRooms .newline) := by
  have hkeys : (twoRooms .newline).keys.Nodup := by decide
  exact ⟨hkeys, (linked_iff hkeys).2 ⟨by decide, by decide, by decide⟩⟩

/-- Without the last newline the exit is not there. -/
theorem not_linked_twoRooms : (twoRooms .bare).keys.Nodup ∧ ¬ Linked (twoRooms .bare) := by
  have hkeys : (twoRooms .bare).keys.Nodup := by decide
  exact ⟨hkeys, not_linked_of_bare hkeys (by decide) rfl⟩

end Level
