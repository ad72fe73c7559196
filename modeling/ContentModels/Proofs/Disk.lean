import ContentModels.Disk
import ContentModels.Proofs.FileTree.Growth

set_option autoImplicit false

namespace ContentModels.Disk

variable {d : Disk} {t later : FileTree} {directory path content : String}

theorem makesPart {made : FileTree} {result : Except String Unit}
    (makes : d.makeDirectories t path = (made, result)) : t.MakesPart path made := by
  cases result with
  | error reason => exact d.leaves makes
  | ok => exact FileTree.makeDirectories_part (d.makes makes)

-- A temporary file is created in a directory, filled, and takes the place of a file.
def replace (d : Disk) (t : FileTree) (directory path content : String) :
    FileTree × Except String Unit :=
  match d.createTemporary t directory with
  | .error reason => (t, .error reason)
  | .ok created =>
    match d.append t created content with
    | .error reason => (t, .error reason)
    | .ok filled => d.persist t filled path

theorem replace_error {reason : String}
    (failed : d.replace t directory path content = (later, .error reason)) : later = t := by
  unfold replace at failed
  split at failed
  next => exact (Prod.mk.inj failed).1.symm
  next =>
    split at failed
    next => exact (Prod.mk.inj failed).1.symm
    next => exact d.untouched failed

theorem replace_ok (done : d.replace t directory path content = (later, .ok ())) :
    t.write path content.toUTF8 = (later, .ok ()) := by
  unfold replace at done
  split at done
  next => cases done
  next created starts =>
    split at done
    next => cases done
    next filled appended =>
      have whole : filled.content = content := by
        rw [d.appends appended, d.starts starts, String.empty_append]
      rw [← whole]
      exact d.replaces done

theorem faultless_replace (admits : t.admitsFiles directory = true) :
    faultless.replace t directory path content = t.write path content.toUTF8 := by
  have created : faultless.createTemporary t directory =
      .ok { path := t.temporaryPath directory } := if_pos admits
  rw [replace, created]
  change t.write path ("" ++ content).toUTF8 = _
  rw [String.empty_append]

end ContentModels.Disk
