import Coursework.Level.Spec.Files

/-!
# The descriptions of the rooms

The text of a description is cut out of its line by hand, one character too far on both sides.

## Key results

- `load_descriptions`: what the rooms have for descriptions
- `not_faithful`: no level file is loaded with the descriptions that it has
-/

namespace Level

open CStd

/-- The text of the last description of a room. -/
def LevelFile.lastText (file : LevelFile) (i : Nat) : Option (List UInt8) :=
  (file.descriptions.filter fun d => d.id.value = i).getLast?.map (·.text)

/-- The loader returns, and every room has the text of its last description, or NULL. -/
def Faithful (file : LevelFile) : Prop :=
  ∃ fuel rooms, loadLevel fuel (some file.bytes) = some (.ok rooms) ∧
    ∀ i < file.count.value, ∃ room, rooms[i]? = some room ∧ room.description = file.lastText i

variable {rooms : List Room} {file : LevelFile} {i : Nat}

def descriptionAt (rooms : List Room) (i : Nat) : Option (List UInt8) :=
  rooms[i]?.bind (·.description)

theorem descriptionAt_describeRoom (hi : i < rooms.length) (j : Nat) (text : List UInt8) :
    descriptionAt (describeRoom rooms j text) i =
      if j = i then some text else descriptionAt rooms i := by
  rw [descriptionAt, describeRoom, List.getElem?_modify, List.getElem?_eq_getElem hi,
    descriptionAt, List.getElem?_eq_getElem hi]
  split <;> rfl

theorem descriptionAt_modify {f : Room → Room}
    (hf : ∀ room, (f room).description = room.description) (j : Nat) :
    descriptionAt (rooms.modify j f) i = descriptionAt rooms i := by
  rw [descriptionAt, List.getElem?_modify, descriptionAt]
  cases rooms[i]? with
  | none => rfl
  | some room =>
    show (if j = i then f room else room).description = room.description
    split
    · exact hf room
    · rfl

theorem descriptionAt_link (rooms : List Room) (dir : Direction) (a b : Nat) (locked : Bool) :
    descriptionAt (link rooms dir a b locked) i = descriptionAt rooms i := by
  have hsetDest : ∀ d e, ∀ room : Room, (room.setDest d e).description = room.description :=
    fun _ _ _ => rfl
  have hlock : ∀ room : Room, (room.lock dir).description = room.description := fun _ => rfl
  have hdests : descriptionAt ((rooms.modify a fun room => room.setDest dir b).modify b
      fun room => room.setDest (flipDirection dir) a) i = descriptionAt rooms i :=
    (descriptionAt_modify (hsetDest _ a) b).trans (descriptionAt_modify (hsetDest dir b) a)
  unfold link
  dsimp only
  split
  · exact (descriptionAt_modify hlock a).trans hdests
  · exact hdests

/-- Connections leave the descriptions alone. -/
theorem descriptionAt_linkAll (rooms : List Room) (cs : List Connection) :
    descriptionAt (linkAll rooms cs) i = descriptionAt rooms i := by
  induction cs generalizing rooms with
  | nil => rfl
  | cons c cs ih =>
    exact (ih _).trans (descriptionAt_link ..)

theorem descriptionAt_describeAll (hi : i < rooms.length) (ds : List Description) :
    descriptionAt (describeAll rooms ds) i =
      ((ds.filter fun d => d.id.value = i).getLast?.map fun d => d.text.tail.dropLast).or
        (descriptionAt rooms i) := by
  induction ds generalizing rooms with
  | nil => rfl
  | cons d ds ih =>
    have hlength : i < (describeRoom rooms d.id.value d.text.tail.dropLast).length := by
      rwa [length_describeRoom]
    have hrest := ih hlength
    rw [descriptionAt_describeRoom hi] at hrest
    refine hrest.trans ?_
    by_cases hd : d.id.value = i
    · rw [if_pos hd, List.filter_cons_of_pos (by simpa using hd), List.getLast?_cons]
      -- a later description of the room replaces this one
      cases (ds.filter fun d => d.id.value = i).getLast? <;> rfl
    · rw [if_neg hd, List.filter_cons_of_neg (by simpa using hd)]

theorem descriptionAt_emptyRooms (file : LevelFile) (i : Nat) :
    descriptionAt file.emptyRooms i = none := by
  rw [descriptionAt, LevelFile.emptyRooms, List.getElem?_map]
  cases (List.range file.count.value)[i]? <;> rfl

/-- A level file with descriptions that is loaded has their part in full. -/
theorem load_rooms (hds : file.descriptions ≠ []) {fuel : Nat}
    (hload : loadLevel fuel (some file.bytes) = some (.ok rooms)) :
    ∃ m, rooms = linkAll (describeAll file.emptyRooms file.descriptions)
      (file.connections.take m) := by
  have hcan := canLoad_of_ok hload
  -- a file that ended in its head would not be loaded
  obtain ⟨q, hbytes, hq⟩ : ∃ q, file.bytes = file.head ++ q ∧
      q <+: join (file.connections.map Connection.line) ++ file.extra := by
    cases prefix_append_cases (bytes_piece file) with
    | inl hin =>
      refine ⟨[], ?_, List.nil_prefix⟩
      rw [List.append_nil]
      by_contra hne
      exact not_canLoad_head hin hne hcan
    | inr hout => exact hout
  obtain ⟨m, hlines⟩ := connectionLines_piece hq
  have hresult := loadLevel_descriptions hds hlines (List.take_subset m _) (Nat.lt_succ_self _)
  rw [← hbytes] at hresult
  refine ⟨m, ?_⟩
  split at hresult
  · exact Except.ok.inj (loadLevel_unique hload hresult)
  · cases loadLevel_unique hload hresult

/-- The rooms get the texts without their first and last characters. -/
theorem load_descriptions (hds : file.descriptions ≠ []) {fuel : Nat}
    (hload : loadLevel fuel (some file.bytes) = some (.ok rooms)) (hi : i < file.count.value) :
    descriptionAt rooms i = (file.lastText i).map fun text => text.tail.dropLast := by
  obtain ⟨m, rfl⟩ := load_rooms hds hload
  rw [descriptionAt_linkAll, descriptionAt_describeAll (by rwa [length_emptyRooms]),
    descriptionAt_emptyRooms, Option.or_none, LevelFile.lastText, Option.map_map]
  rfl

/-- Every text loses characters. -/
theorem cut_ne (d : Description) : d.text.tail.dropLast ≠ d.text := by
  intro heq
  have hlength := congrArg List.length heq
  have hpos := List.length_pos_iff.2 d.text_ne
  rw [List.length_dropLast, List.length_tail] at hlength
  omega

/-- No level file is loaded with the descriptions that it has. -/
theorem not_faithful (file : LevelFile) : ¬ Faithful file := by
  intro hfaithful
  obtain ⟨fuel, rooms, hload, hrooms⟩ := hfaithful
  by_cases hds : file.descriptions = []
  · -- room 0 has been given a connection for its description
    have hcan := canLoad_of_ok hload
    obtain ⟨hcs, hending, -⟩ := (canLoad_connections hds List.prefix_rfl).1 hcan
    obtain ⟨text, hresult⟩ := loadLevel_connections hds hcs hending (Nat.lt_succ_self _)
    obtain rfl := Except.ok.inj (loadLevel_unique hload hresult)
    obtain ⟨c, cs, hcons⟩ := List.exists_cons_of_ne_nil hcs
    have hpos : 0 < file.count.value :=
      Nat.zero_lt_of_lt (file.ends c (by rw [hcons]; exact List.mem_cons_self)).1
    obtain ⟨room, hroom, hdescription⟩ := hrooms 0 hpos
    have hzero := descriptionAt_describeRoom (show 0 < file.emptyRooms.length by
      rwa [length_emptyRooms]) 0 text
    rw [descriptionAt, hroom, if_pos rfl] at hzero
    rw [LevelFile.lastText, hds] at hdescription
    cases hdescription.symm.trans hzero
  · obtain ⟨d, ds, hcons⟩ := List.exists_cons_of_ne_nil hds
    have hd : d ∈ file.descriptions := by
      rw [hcons]
      exact List.mem_cons_self
    obtain ⟨room, hroom, hdescription⟩ := hrooms d.id.value (file.ids d hd)
    have hcut := load_descriptions hds hload (file.ids d hd)
    rw [descriptionAt, hroom] at hcut
    obtain ⟨last, hlast⟩ : ∃ last, (file.descriptions.filter fun e =>
      -- the last description of this room, which may be another one than `d`
        e.id.value = d.id.value).getLast? = some last := by
      apply Option.isSome_iff_exists.1
      rw [List.getLast?_isSome]
      exact List.ne_nil_of_mem (List.mem_filter.2 ⟨hd, decide_eq_true rfl⟩)
    rw [LevelFile.lastText, hlast] at hdescription hcut
    exact cut_ne last (Option.some.inj (hcut.symm.trans hdescription))

/-- Room 0 is described as `ell`. -/
theorem not_faithful_oneRoom : ¬ Faithful oneRoom := by
  intro hfaithful
  obtain ⟨fuel, rooms, hload, hrooms⟩ := hfaithful
  obtain ⟨room, hroom, hdescription⟩ := hrooms 0 (by decide)
  have hcut := load_descriptions (show oneRoom.descriptions ≠ [] by decide) hload
    (show 0 < oneRoom.count.value by decide)
  rw [descriptionAt, hroom] at hcut
  exact absurd (hdescription.symm.trans hcut) (by decide)

end Level
