import FfmucSalt.Foundation.Program

/-!
# Replacing a file by renaming

A file that is always replaced as a whole: new contents go to a temporary file,
which is then renamed.  An action that fails, or during which the process dies,
may leave anything in the temporary file; renaming is atomic.  Contents that
were not synced may be lost later.
-/

namespace FfmucSalt.AtomicFile

structure File (β : Type) where
  bytes : List β
  /-- The contents reached the disk. -/
  synced : Bool
  deriving DecidableEq

/-- The file itself and the temporary file next to it. -/
structure Disk (β : Type) where
  path : Option (File β)
  temp : Option (File β)
  deriving DecidableEq

inductive FileAction (β : Type) where
  /-- Open the temporary file, and truncate it if it exists. -/
  | create
  | write (bytes : List β)
  | sync
  | close
  /-- Remove the temporary file. -/
  | remove
  /-- Rename the temporary file to the path. -/
  | rename

variable {β ε : Type}

/-- What an action does, with the error it returns. -/
inductive Performs (disk : Disk β) :
    FileAction β → Option ε → Disk β → Prop where
  | created : Performs disk .create none
      { disk with temp := some { bytes := [], synced := false } }
  | written {file : File β} {bytes : List β} (opened : disk.temp = some file) :
      Performs disk (.write bytes) none
        { disk with temp := some { bytes := file.bytes ++ bytes, synced := false } }
  | synced {file : File β} (opened : disk.temp = some file) :
      Performs disk .sync none
        { disk with temp := some { file with synced := true } }
  | closed : Performs disk .close none disk
  | removed : Performs disk .remove none { disk with temp := none }
  | renamed {file : File β} (present : disk.temp = some file) :
      Performs disk .rename none { path := some file, temp := none }
  | failed {action : FileAction β} {err : ε} {temp : Option (File β)} :
      Performs disk action (some err) { disk with temp }

/-- Programs that work on the two files. -/
abbrev Files (β ε : Type) : Type → Type :=
  Program (FileAction β) fun _ => Option ε

def machine : Machine (FileAction β) (fun _ => Option ε) Empty (Disk β) :=
  { performs := Performs
    crashes := fun _ _ _ => False
    environment := fun _ _ _ => False }

/-- What may be found later: synced files, and anything instead of others. -/
def Disk.Survives (disk later : Disk β) : Prop :=
  match disk.path with
  | none => later.path = none
  | some file => file.synced → later.path = some file

theorem Disk.Survives.path {disk later : Disk β} (survives : disk.Survives later)
    (synced : ∀ file, disk.path = some file → file.synced) :
    later.path = disk.path := by
  unfold Survives at survives
  cases isPath : disk.path with
  | none =>
      rw [isPath] at survives
      exact survives
  | some file =>
      rw [isPath] at survives
      exact survives (synced file isPath)

section Performs

variable {disk later : Disk β}

/-- Only renaming touches the path. -/
theorem Performs.path_eq {action : FileAction β} {err : Option ε}
    (performs : Performs disk action err later) (other : action ≠ .rename) :
    later.path = disk.path := by
  cases performs with
  | renamed => exact (other rfl).elim
  | _ => rfl

theorem Performs.path_of_fails {action : FileAction β} {err : ε}
    (performs : Performs disk action (some err) later) :
    later.path = disk.path := by
  cases performs
  rfl

theorem Performs.temp_of_create
    (performs : Performs disk .create (none : Option ε) later) :
    later.temp = some { bytes := [], synced := false } := by
  cases performs
  rfl

theorem Performs.temp_of_write {bytes : List β} {file : File β}
    (performs : Performs disk (.write bytes) (none : Option ε) later)
    (opened : disk.temp = some file) :
    later.temp =
      some { bytes := file.bytes ++ bytes, synced := false } := by
  cases performs with
  | written alsoOpened =>
      rw [opened] at alsoOpened
      cases alsoOpened
      rfl

theorem Performs.temp_of_sync {file : File β}
    (performs : Performs disk .sync (none : Option ε) later)
    (opened : disk.temp = some file) :
    later.temp = some { file with synced := true } := by
  cases performs with
  | synced alsoOpened =>
      rw [opened] at alsoOpened
      cases alsoOpened
      rfl

theorem Performs.temp_of_close
    (performs : Performs disk .close (none : Option ε) later) :
    later.temp = disk.temp := by
  cases performs
  rfl

theorem Performs.path_of_rename {file : File β}
    (performs : Performs disk .rename (none : Option ε) later)
    (present : disk.temp = some file) : later.path = some file := by
  cases performs with
  | renamed alsoPresent =>
      rw [present] at alsoPresent
      cases alsoPresent
      rfl

end Performs

end FfmucSalt.AtomicFile
