import Spkdfs.Lib.PathText

/-!
# Paths of the namespace

`simplify_path` of `common/utils.cpp` is the one function that turns a request
path into the key of a record.  It is `path::lexically_normal` without a
trailing separator; `Spkdfs.Lib.PathText` has both.

`Inode` keeps its `fullpath` private, and `set_fullpath` is the only function
that writes it.  `FullPath` is that field: a text that `simplify_path` leaves
alone.  A default-constructed `Inode` has the empty text, which is one of
these.

`Inode::parent_path` and `Inode::filename` read the field through
`std::filesystem::path`.  The parent of a canonical path is canonical again, so
`FullPath.parentPath` stays inside the type.
-/

namespace Spkdfs

/-- `simplify_path`. -/
def simplifyPath (path : String) : String :=
  String.ofList (PathText.dropTrailingSlash (PathText.lexicallyNormal path.toList))

theorem normal_toList_simplifyPath (path : String) :
    PathText.Normal (simplifyPath path).toList := by
  rw [simplifyPath, String.toList_ofList]
  exact PathText.normal_simplify _

/-- A second call changes nothing. -/
theorem simplifyPath_simplifyPath (path : String) :
    simplifyPath (simplifyPath path) = simplifyPath path := by
  have h := PathText.simplify_of_normal (normal_toList_simplifyPath path)
  rw [simplifyPath, h, String.ofList_toList]

/-- Only the empty path is simplified to the empty path. -/
theorem simplifyPath_eq_empty {path : String} (h : simplifyPath path = "") : path = "" := by
  have hnil : PathText.dropTrailingSlash (PathText.lexicallyNormal path.toList) = [] := by
    rw [← String.toList_ofList (l := PathText.dropTrailingSlash _)]
    exact congrArg String.toList h
  exact String.toList_inj.mp (PathText.simplify_eq_nil hnil)

/-- The private field `Inode::fullpath`. -/
structure FullPath where
  text : String
  canonical : simplifyPath text = text
  deriving DecidableEq

namespace FullPath

theorem ext_text {p q : FullPath} (h : p.text = q.text) : p = q := by
  cases p
  cases q
  congr

/-- `Inode::set_fullpath`. -/
def set (path : String) : FullPath := ⟨simplifyPath path, simplifyPath_simplifyPath path⟩

theorem set_text (p : FullPath) : set p.text = p := ext_text p.canonical

/-- The path `"/"`. -/
def root : FullPath := ⟨"/", by decide⟩

theorem normal (p : FullPath) : PathText.Normal p.text.toList := by
  rw [← p.canonical]
  exact normal_toList_simplifyPath p.text

/-- `Inode::parent_path`. -/
def parentPath (p : FullPath) : FullPath where
  text := String.ofList (PathText.parentPath p.text.toList)
  canonical := by
    rw [simplifyPath, String.toList_ofList, PathText.simplify_of_normal p.normal.parentPath]

/-- The last name of the path, `path::filename`. -/
def filename (p : FullPath) : String := String.ofList (PathText.filename p.text.toList)

theorem not_slash_mem_filename (p : FullPath) : '/' ∉ p.filename.toList := by
  rw [filename, String.toList_ofList]
  exact PathText.not_mem_filename _

/-- A name with a slash behind it is nobody's last name. -/
theorem filename_slash_ne (p q : FullPath) : p.filename ++ "/" ≠ q.filename := by
  intro h
  apply q.not_slash_mem_filename
  rw [← h, String.toList_append]
  exact List.mem_append_right _ (by decide)

@[simp] theorem parentPath_root : root.parentPath = root := by decide

theorem ne_root_of_parentPath_ne {p : FullPath} (h : p.parentPath ≠ p) : p ≠ root := by
  intro hroot
  rw [hroot, parentPath_root] at h
  exact h rfl

/-- A path is known from its parent and its last name. -/
theorem eq_of_parentPath_of_filename {p q : FullPath} (hp : p.parentPath = q.parentPath)
    (hf : p.filename = q.filename) : p = q := by
  have hp' : PathText.parentPath p.text.toList = PathText.parentPath q.text.toList := by
    have := congrArg (fun r => r.text.toList) hp
    simpa [parentPath] using this
  have hf' : PathText.filename p.text.toList = PathText.filename q.text.toList := by
    have := congrArg String.toList hf
    simpa [filename] using this
  exact ext_text (String.toList_inj.mp (p.normal.eq_of_parentPath_of_filename q.normal hp' hf'))

/-- Besides the root, only the empty path is its own parent. -/
theorem parentPath_ne_self {p : FullPath} (hroot : p ≠ root) (hempty : p.text ≠ "") :
    p.parentPath ≠ p := by
  intro h
  have htext : PathText.parentPath p.text.toList = p.text.toList := by
    have := congrArg (fun r => r.text.toList) h
    simpa [parentPath] using this
  rcases p.normal.parentPath_eq_self htext with hnil | hslash
  · exact hempty (String.toList_inj.mp hnil)
  · exact hroot (ext_text (String.toList_inj.mp hslash))

/-- A non-empty request path gives a non-empty key. -/
theorem set_text_ne_empty {path : String} (h : path ≠ "") : (set path).text ≠ "" :=
  fun hs => h (simplifyPath_eq_empty hs)

/-- A key is absolute exactly if the request path is. -/
theorem isAbsolute_set (s : String) :
    PathText.isAbsolute (set s).text.toList = PathText.isAbsolute s.toList := by
  have htext : (set s).text.toList =
      PathText.dropTrailingSlash (PathText.lexicallyNormal s.toList) := String.toList_ofList
  rw [htext, PathText.isAbsolute_simplify]

end FullPath

/-- `LOCK_REFRESH_INTERVAL` of `common/config.h`, in seconds. -/
def lockRefreshInterval : UInt64 := 60

end Spkdfs
