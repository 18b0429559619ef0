import Spkdfs.Common.Utils
import Spkdfs.Common.StorageType

/-!
# Inodes

`Inode` of `common/inode.h`: one record of the namespace.  `sub` holds the names
of the children of a directory, and the block locations of a file.

The clock is an argument: `get_time()` becomes the parameter `now`.
-/

namespace Spkdfs

/-- `class Inode`. -/
structure Inode where
  fullpath : FullPath
  isDirectory : Bool
  filesize : UInt64
  storageType : Option StorageType
  sub : List String
  valid : Bool
  ddlLock : UInt64
  deriving DecidableEq

namespace Inode

/-- A default-constructed `Inode` after `set_fullpath`.  The source leaves
`valid` uninitialised; every caller assigns it before it is read, so `false`
stands for it here. -/
def new (path : FullPath) : Inode where
  fullpath := path
  isDirectory := false
  filesize := 0
  storageType := none
  sub := []
  valid := false
  ddlLock := 0

/-- `Inode::get_default_dir`. -/
def getDefaultDir (path : FullPath) : Inode where
  fullpath := path
  isDirectory := true
  filesize := 0
  storageType := none
  sub := []
  valid := true
  ddlLock := 0

/-- `Inode::lock`. -/
def lock (inode : Inode) (now : UInt64) : Except Exception Inode :=
  if inode.ddlLock ≥ now then
    .error (.message ⟨.expectedLockConflict,
      inode.fullpath.text ++ " file is being edit! ddl_lock: " ++ toString inode.ddlLock.toNat
        ++ ", now: " ++ toString now.toNat⟩)
  else
    .ok { inode with ddlLock := now + lockRefreshInterval }

/-- `Inode::unlock`. -/
def unlock (inode : Inode) : Inode := { inode with ddlLock := 0 }

/-- `Inode::update_ddl_lock`. -/
def updateDdlLock (inode : Inode) (now : UInt64) : Inode :=
  { inode with ddlLock := now + lockRefreshInterval }

/-- `Inode::filename`: a directory has a trailing slash. -/
def filename (inode : Inode) : String :=
  if inode.isDirectory then inode.fullpath.filename ++ "/" else inode.fullpath.filename

/-- `Inode::parent_path`. -/
def parentPath (inode : Inode) : FullPath := inode.fullpath.parentPath

/-- The two kinds of child never share a listed name, and neither do two
children of one directory. -/
theorem eq_of_filename_eq {i j : Inode} (hp : i.parentPath = j.parentPath)
    (hf : i.filename = j.filename) :
    i.fullpath = j.fullpath ∧ i.isDirectory = j.isDirectory := by
  unfold filename at hf
  split at hf <;> split at hf
  · rename_i hi hj
    have hbase := congrArg String.toList hf
    rw [String.toList_append, String.toList_append, List.append_cancel_right_eq] at hbase
    exact ⟨FullPath.eq_of_parentPath_of_filename hp (String.toList_inj.mp hbase), by rw [hi, hj]⟩
  · exact absurd hf (FullPath.filename_slash_ne _ _)
  · exact absurd hf.symm (FullPath.filename_slash_ne _ _)
  · rename_i hi hj
    exact ⟨FullPath.eq_of_parentPath_of_filename hp hf, by simp_all⟩

end Inode

end Spkdfs
