import FeatureDepot.Disk
import Mathlib.Tactic.Lemma

/-! Actions on the file system, one behind the other. -/
namespace FeatureDepot.Disk

variable {α β : Type}

/-- An action behind another one sees what that has left, unless that has failed. -/
theorem bind_eq (x : Disk α) (f : α → Disk β) (fs : FileSystem) : (x >>= f) fs = match x fs with
    | (.ok a, fs) => f a fs
    | (.error e, fs) => (.error e, fs) := by
  simp only [bind, ExceptT.bind, ExceptT.mk, StateT.bind]
  rcases x fs with ⟨outcome | outcome, fs⟩ <;> rfl

/-- What is made of the result leaves the file system alone. -/
theorem bind_return_snd (x : Disk α) (f : α → β) (fs : FileSystem) :
    ((x >>= fun a => return f a) fs).2 = (x fs).2 := by
  rw [bind_eq]
  rcases x fs with ⟨outcome | a, fs⟩ <;> rfl

theorem look_eq (operation : FileSystem → Except IoError α) (fs : FileSystem) :
    look operation fs = ((operation fs).mapError fun e => { cause := .io e }, fs) := by
  have hget : (get : Disk FileSystem) fs = (.ok fs, fs) := rfl
  unfold look
  rw [bind_eq, hget]
  cases h : operation fs <;> simp only [h] <;> rfl

theorem during_eq (a : Activity) (action : Disk α) (fs : FileSystem) :
    during a action fs = ((action fs).1.mapError (Failure.around a), (action fs).2) := by
  unfold during
  rcases action fs with ⟨outcome | outcome, fs⟩ <;> rfl

variable {fs fs' : FileSystem}

/-- Actions behind each other succeed one by one. -/
theorem bind_eq_ok_iff {x : Disk α} {f : α → Disk β} {b : β} : (x >>= f) fs = (.ok b, fs') ↔
    ∃ a middle, x fs = (.ok a, middle) ∧ f a middle = (.ok b, fs') := by
  rw [bind_eq]
  rcases hx : x fs with ⟨outcome | a, middle⟩
  · constructor
    · intro h
      cases h
    · rintro ⟨a, middle, h, -⟩
      cases h
  · constructor
    · exact fun h => ⟨a, middle, rfl, h⟩
    · rintro ⟨a, middle, h, hf⟩
      cases h
      exact hf

/-- Actions behind each other fail at the first one that does. -/
theorem bind_eq_error_iff {x : Disk α} {f : α → Disk β} {failure : Failure} :
    (x >>= f) fs = (.error failure, fs') ↔
    x fs = (.error failure, fs') ∨ ∃ a middle, x fs = (.ok a, middle) ∧
    f a middle = (.error failure, fs') := by
  rw [bind_eq]
  rcases hx : x fs with ⟨outcome | a, middle⟩
  · constructor
    · intro h
      obtain ⟨houtcome, rfl⟩ := Prod.mk.inj h
      exact .inl (by rw [Except.error.inj houtcome])
    · rintro (h | ⟨a, middle, h, -⟩)
      · obtain ⟨houtcome, rfl⟩ := Prod.mk.inj h
        rw [Except.error.inj houtcome]
      · cases h
  · constructor
    · exact fun h => .inr ⟨a, middle, rfl, h⟩
    · rintro (h | ⟨a, middle, h, hf⟩)
      · cases h
      · cases h
        exact hf

theorem look_eq_ok_iff {operation : FileSystem → Except IoError α} {a : α} :
    look operation fs = (.ok a, fs') ↔ operation fs = .ok a ∧ fs = fs' := by
  rw [look_eq]
  constructor
  · intro h
    obtain ⟨houtcome, hfs⟩ := Prod.mk.inj h
    cases hoperation : operation fs with
    | error e =>
      rw [hoperation] at houtcome
      cases houtcome
    | ok b =>
      rw [hoperation] at houtcome
      exact ⟨congrArg _ (Except.ok.inj houtcome), hfs⟩
  · rintro ⟨h, rfl⟩
    rw [h]
    rfl

theorem during_eq_ok_iff {activity : Activity} {action : Disk α} {a : α} :
    during activity action fs = (.ok a, fs') ↔ action fs = (.ok a, fs') := by
  unfold during
  rcases action fs with ⟨outcome | b, middle⟩
  · constructor <;> intro h <;> cases h
  · rfl

/-- A failure names the activity that it happened in first. -/
theorem during_eq_error_iff {activity : Activity} {action : Disk α} {failure : Failure} :
    during activity action fs = (.error failure, fs') ↔
      ∃ inner, action fs = (.error inner, fs') ∧ failure = inner.around activity := by
  unfold during
  rcases action fs with ⟨inner | a, middle⟩
  · constructor
    · intro h
      obtain ⟨houtcome, rfl⟩ := Prod.mk.inj h
      exact ⟨inner, rfl, (Except.error.inj houtcome).symm⟩
    · rintro ⟨_, h, rfl⟩
      obtain ⟨houtcome, rfl⟩ := Prod.mk.inj h
      rw [Except.error.inj houtcome]
  · constructor
    · intro h
      cases h
    · rintro ⟨_, h, -⟩
      cases h

lemma change_eq (operation : FileSystem → FileSystem × Except IoError α) (fs : FileSystem) :
    change operation fs = ((operation fs).2.mapError fun e => { cause := .io e },
      (operation fs).1) := by
  have hget : (get : Disk FileSystem) fs = (.ok fs, fs) := rfl
  unfold change
  rw [bind_eq, hget]
  rcases h : operation fs with ⟨fs', outcome | outcome⟩ <;> simp only [h] <;> rfl

theorem giveUp_eq (temporary : Path) (cause : Cause) (fs : FileSystem) :
    giveUp temporary cause fs = match fs.removeFile temporary with
      | .ok fs => (.error { cause }, fs)
      | .error e => (.error { cause, abandoned := some (temporary, e) }, fs) := by
  have hget : (get : Disk FileSystem) fs = (.ok fs, fs) := rfl
  unfold giveUp
  rw [bind_eq, hget]
  cases h : fs.removeFile temporary <;> simp only [h] <;> rfl

/-- A file is replaced by way of its temporary file: made, filled, and moved. -/
theorem replace_eq (host : Host) (p : Path) (pieces : List (Except Cause Bytes)) (fs : FileSystem) :
    replace host p pieces fs = match fs.createFile (temporary host fs p) with
      | .error e => giveUp (temporary host fs p) (.io e) fs
      | .ok (fs', place) =>
        match content pieces with
        | .error cause => giveUp (temporary host fs p) cause fs'
        | .ok bytes =>
          match (fs'.put place (.file bytes)).moveFile place bytes p with
          | .ok fs'' => (.ok (), fs'')
          | .error e => (.error { cause := .io e }, fs'.put place (.file bytes)) := by
  have hget : (get : Disk FileSystem) fs = (.ok fs, fs) := rfl
  unfold replace
  rw [bind_eq, hget]
  rcases h : fs.createFile (temporary host fs p) with e | ⟨fs', place⟩
  · simp only [h]
  · simp only [h]
    cases content pieces with
    | error cause => rfl
    | ok bytes =>
      cases hmove : (fs'.put place (.file bytes)).moveFile place bytes p <;>
        simp only [bind_eq, hmove] <;> rfl

theorem makeRoom_eq (p : Path) (fs : FileSystem) : makeRoom p fs = match p.parent? with
    | some directory =>
      ((fs.makeDirectories directory).2.mapError fun e => { cause := .io e },
        (fs.makeDirectories directory).1)
    | none => (.ok (), fs) := by
  unfold makeRoom
  cases p.parent? with
  | none => rfl
  | some directory => exact change_eq _ fs

/-- Content that comes in one piece. -/
theorem content_singleton (bytes : Bytes) : content [.ok bytes] = .ok bytes := by
  simp [content, bind, Except.bind, pure, Except.pure]

end FeatureDepot.Disk
