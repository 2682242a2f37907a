import AmdUnwrap.CommandLine.Directory

namespace AmdUnwrap

/-- What a run takes for granted of a file system. -/
class LawfulFileSystem (Files : Type) [FileSystem Files] where
  /-- What the file at a path holds, whether it may be read or not. -/
  content? : Files → Text → Option Bytes
  /-- Two paths lead to one file. -/
  SameFile : Files → Text → Text → Prop
  content_read {files : Files} {path : Text} {content : Bytes} :
    FileSystem.readFile files path = .ok content → content? files path = some content
  content_written {files after : Files} {path : Text} {content : Bytes} :
    FileSystem.writeFile files path content = .ok after → content? after path = some content
  content_other {files after : Files} {path other : Text} {content : Bytes} :
    FileSystem.writeFile files path content = .ok after → ¬ SameFile files other path →
      content? after other = content? files other

theorem FileSystem.readFile_written {Files : Type} [FileSystem Files] [LawfulFileSystem Files]
    {files after : Files} {path : Text} {content found : Bytes}
    (written : writeFile files path content = .ok after)
    (read : readFile after path = .ok found) : found = content := by
  have stored := LawfulFileSystem.content_written written
  rw [LawfulFileSystem.content_read read] at stored
  exact Option.some.inj stored

namespace Directory

variable {d after : Directory} {path other : Text} {content : Bytes}

def overwrite (path : Text) (content : Bytes) (file : File) : File :=
  if steps file.path == steps path then { file with content := content } else file

theorem overwrite_path (path : Text) (content : Bytes) (file : File) :
    (overwrite path content file).path = file.path := by
  unfold overwrite
  split <;> rfl

theorem overwrite_content {file : File} (same : steps file.path = steps path) :
    (overwrite path content file).content = content := by
  rw [overwrite, same, if_pos (beq_self_eq_true _)]

theorem overwrite_other {file : File} (apart : steps file.path ≠ steps path) :
    overwrite path content file = file := by
  apply if_neg
  intro same
  exact apart (eq_of_beq same)

theorem put_of_some {file : File} (present : d.find? path = some file) :
    d.put path content = d.map (overwrite path content) := by
  rw [put, present]
  rfl

theorem put_of_none (absent : d.find? path = none) :
    d.put path content = d ++ [⟨path, content⟩] := by
  rw [put, absent]
  rfl

theorem steps_of_find? {file : File} (found : d.find? path = some file) :
    steps file.path = steps path := by
  rw [find?] at found
  have here := List.find?_some found
  exact eq_of_beq here

theorem find?_map_overwrite (d : Directory) (path other : Text) (content : Bytes) :
    find? (d.map (overwrite path content)) other =
      (d.find? other).map (overwrite path content) := by
  unfold find?
  rw [List.find?_map]
  congr 2
  funext file
  rw [Function.comp_apply, overwrite_path]

theorem find?_put : ((d.put path content).find? path).map File.content = some content := by
  cases present : d.find? path with
  | none =>
      have last : find? [⟨path, content⟩] path = some ⟨path, content⟩ := by simp [find?]
      rw [put_of_none present, find?, List.find?_append, ← find?, present, ← find?, last]
      rfl
  | some file =>
      rw [put_of_some present, find?_map_overwrite, present]
      exact congrArg some (overwrite_content (steps_of_find? present))

theorem find?_put_other (apart : steps other ≠ steps path) :
    (d.put path content).find? other = d.find? other := by
  cases present : d.find? path with
  | none =>
      have last : find? [⟨path, content⟩] other = none := by
        simpa [find?] using Ne.symm apart
      rw [put_of_none present, find?, List.find?_append, ← find?, ← find?, last, Option.or_none]
  | some file =>
      rw [put_of_some present, find?_map_overwrite]
      cases found : d.find? other with
      | none => rfl
      | some file =>
          have elsewhere : steps file.path ≠ steps path := by rwa [steps_of_find? found]
          exact congrArg some (overwrite_other elsewhere)

theorem holds_put : (d.put path content).holds (steps path) = d.holds (steps path) := by
  cases present : d.find? path with
  | none => simp [put_of_none present, holds]
  | some file =>
      rw [put_of_some present, holds, holds, List.any_map]
      congr 2
      funext file
      rw [Function.comp_apply, overwrite_path]

theorem writeFile_ok (written : d.writeFile path content = .ok after) :
    after = d.put path content ∧ d.holds (steps path) = false ∧ endsWithSlash path = false := by
  unfold writeFile at written
  split at written
  · cases written
  split at written
  · cases written
  split at written
  · cases written
  next file =>
    cases written
    rw [Bool.or_eq_true, not_or, Bool.not_eq_true, Bool.not_eq_true] at file
    exact ⟨rfl, file.2, file.1⟩

theorem readFile_written (written : d.writeFile path content = .ok after) :
    after.readFile path = .ok content := by
  obtain ⟨rfl, file, plain⟩ := writeFile_ok written
  have stored : ((d.put path content).find? path).map File.content = some content := find?_put
  obtain ⟨found, present, same⟩ := Option.map_eq_some_iff.mp stored
  simp [readFile, holds_put, file, plain, present, same]

theorem find?_written (written : d.writeFile path content = .ok after)
    (apart : steps other ≠ steps path) : after.find? other = d.find? other := by
  rw [(writeFile_ok written).1]
  exact find?_put_other apart

theorem find?_read (read : d.readFile path = .ok content) :
    (d.find? path).map File.content = some content := by
  unfold readFile at read
  split at read
  · cases read
  split at read
  next file present =>
    split at read
    · cases read
    · cases read
      rw [present]
      rfl
  · cases read

end Directory

instance : LawfulFileSystem Directory where
  content? d path := (d.find? path).map File.content
  SameFile _ other path := Directory.steps other = Directory.steps path
  content_read := Directory.find?_read
  content_written written := by
    rw [(Directory.writeFile_ok written).1]
    exact Directory.find?_put
  content_other written apart := by rw [Directory.find?_written written apart]

end AmdUnwrap
