import ArithScript.Command.Files

/-!
# Writing and reading files

Putting a file changes what is at one place and nothing else (`entryAt_put`). The place is no
directory, so whatever way led through directories still does, and the path that was written leads
to the bytes that were written (`read_put_of_takes`).

Writing has three ends (`write_cases`). A path that is not taken changes nothing. One that is taken
gets the bytes if the device has room for them, and a beginning of them if it has not.
-/

set_option autoImplicit false

namespace ArithScript.Command.Files

/-- **One place is changed.** -/
theorem entryAt_put (files : Files) (place : Place) (bytes : List UInt8) (other : Place) :
    (files.put place bytes).entryAt other
      = if other = place then .file bytes else files.entryAt other := by
  unfold entryAt put
  by_cases hother : other = place
  · simp [hother]
  · have hothers : (files.entries.filter (·.1 ≠ place)).find? (·.1 = other)
        = files.entries.find? (·.1 = other) := by
      rw [List.find?_filter]
      congr 1
      funext entry
      by_cases hentry : entry.1 = other
      · simp [hentry, hother]
      · simp [hentry]
    rw [List.find?_cons_of_neg (by simpa using Ne.symm hother), hothers, if_neg hother]

/-- A way through directories is still there when a file is written where there was no directory. -/
theorem follow_put {files : Files} {place : Place} (hplace : files.entryAt place ≠ .directory)
    (bytes : List UInt8) {steps : List String} {here reached : Place}
    (h : files.follow here steps = .ok reached) :
    (files.put place bytes).follow here steps = .ok reached := by
  induction steps generalizing here with
  | nil => exact h
  | cons name names ih =>
    rw [follow] at h ⊢
    cases hhere : files.entryAt here with
    | file bytes => simp [hhere] at h
    | missing => simp [hhere] at h
    | directory =>
      -- the file is not put here, because here is a directory
      have hother : here ≠ place := by
        rintro rfl
        exact hplace hhere
      rw [hhere] at h
      rw [entryAt_put, if_neg hother, hhere]
      dsimp only at h ⊢
      split at h
      · cases h
      · next hshort =>
        rw [if_neg hshort]
        exact ih h

theorem put_put (files : Files) (place : Place) (bytes bytes' : List UInt8) :
    (files.put place bytes).put place bytes' = files.put place bytes' := by
  simp [put, List.filter_filter]

/-! ## Opening and filling

Writing opens the place of a path, which makes the file empty, and then fills it. Between the two
the device may break off. -/

/-- A path gives a place to a file: there is no directory, and the device opens it. -/
structure Takes (files : Files) (medium : Medium) (path : String) (place : Place) : Prop where
  reached : files.writePlace path = .ok place
  notDirectory : files.entryAt place ≠ .directory
  opens : ∀ error, medium place ≠ .refuses error

theorem create_of_takes {files : Files} {medium : Medium} {path : String} {place : Place}
    (h : files.Takes medium path place) :
    files.create medium path = .ok (place, files.put place []) := by
  simp only [create, h.reached, bind, Except.bind]
  split
  · next hdirectory => exact absurd hdirectory h.notDirectory
  · next hrefuses _ => exact absurd hrefuses (h.opens _)
  · rfl

theorem takes_of_create {files opened : Files} {medium : Medium} {path : String} {place : Place}
    (h : files.create medium path = .ok (place, opened)) :
    files.Takes medium path place ∧ opened = files.put place [] := by
  cases hplace : files.writePlace path with
  | error error =>
    rw [create, hplace] at h
    cases h
  | ok reached =>
    simp only [create, hplace, bind, Except.bind] at h
    split at h
    · cases h
    · cases h
    · next hdirectory hrefuses =>
      cases h
      exact ⟨⟨hplace, hdirectory, hrefuses⟩, rfl⟩

/-- A device has room for so many bytes. -/
def HasRoom (medium : Medium) (place : Place) (size : Nat) : Prop :=
  ∀ room error, medium place = .breaksOff room error → size ≤ room

/-- **How writing a file ends**: the file is not opened, or it is filled, or the device breaks off
and the file is left with a beginning. -/
theorem write_cases (files : Files) (medium : Medium) (path : String) (bytes : List UInt8) :
    ((∀ place, ¬ files.Takes medium path place)
        ∧ ∃ error, files.write medium path bytes = (.error error, files))
      ∨ (∃ place, files.Takes medium path place ∧ HasRoom medium place bytes.length
        ∧ files.write medium path bytes = (.ok (), files.put place bytes))
      ∨ ∃ place room error, files.Takes medium path place
        ∧ medium place = .breaksOff room error ∧ room < bytes.length
        ∧ files.write medium path bytes = (.error error, files.put place (bytes.take room)) := by
  unfold write
  cases hcreate : files.create medium path with
  | error error =>
    refine .inl ⟨fun place htakes => ?_, error, rfl⟩
    rw [create_of_takes htakes] at hcreate
    cases hcreate
  | ok created =>
    obtain ⟨place, opened⟩ := created
    obtain ⟨htakes, rfl⟩ := takes_of_create hcreate
    refine .inr ?_
    -- the path was emptied when it was opened; what the medium does decides how much comes in
    simp only [fill, put_put]
    cases hmedium : medium place with
    | takesAll =>
      refine .inl ⟨place, htakes, fun room error h => ?_, rfl⟩
      cases hmedium.symm.trans h
    | refuses error => exact absurd hmedium (htakes.opens error)
    | breaksOff room error =>
      by_cases hroom : bytes.length ≤ room
      · refine .inl ⟨place, htakes, fun room' error' h => ?_, if_pos hroom⟩
        cases hmedium.symm.trans h
        exact hroom
      · exact .inr ⟨place, room, error, htakes, hmedium, Nat.lt_of_not_le hroom, if_neg hroom⟩

/-- A path that gives a place does not end with a slash, and leads there. -/
theorem followFrom_of_writePlace {files : Files} {path : String} {place : Place}
    (h : files.writePlace path = .ok place) :
    path.endsWith "/" = false ∧ files.followFrom path (pathSteps path) = .ok place := by
  unfold writePlace at h
  cases hslash : path.endsWith "/" with
  | false => exact ⟨rfl, by simpa [hslash] using h⟩
  | true =>
    rw [hslash, if_pos rfl] at h
    cases hfollow : files.followFrom path ((pathSteps path).dropLast ++ ["."]) with
    | error error =>
      rw [hfollow] at h
      cases h
    | ok directory =>
      rw [hfollow] at h
      cases h

theorem read_of_follow {files : Files} {path : String} {place : Place} {bytes : List UInt8}
    (hslash : path.endsWith "/" = false)
    (hfollow : files.followFrom path (pathSteps path) = .ok place)
    (hentry : files.entryAt place = .file bytes) : files.read path = .ok bytes := by
  simp only [read, hfollow, bind, Except.bind, hentry, hslash]
  rfl

/-- **What was written is read.** -/
theorem read_put_of_takes {files : Files} {medium : Medium} {path : String} {place : Place}
    (h : files.Takes medium path place) (bytes : List UInt8) :
    (files.put place bytes).read path = .ok bytes := by
  obtain ⟨hslash, hfollow⟩ := followFrom_of_writePlace h.reached
  have hreached : (files.put place bytes).followFrom path (pathSteps path) = .ok place := by
    unfold followFrom at hfollow ⊢
    split at hfollow
    · cases hfollow
    · next hshort =>
      rw [if_neg hshort]
      exact follow_put h.notDirectory bytes hfollow
  exact read_of_follow hslash hreached (by rw [entryAt_put, if_pos rfl])

end ArithScript.Command.Files
