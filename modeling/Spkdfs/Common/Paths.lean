import Mathlib.Logic.Function.Iterate
import Spkdfs.Common.Utils

/-!
# Canonical paths

What `simplify_path` makes of an absolute path, and how `Inode::parent_path` and
`Inode::filename` take it apart.  The keys of the store are such paths, and every lookup of a
parent rests on them.

`canonical_decomposes` is the summary: a canonical path is its parent and its last name with
one separator between them, and the parents of a path lead to the root.
-/

namespace Spkdfs

/-- An absolute path that `simplify_path` leaves alone: it has no empty component, no `.` and no
`..`, and no separator at its end. -/
structure IsCanonical (p : String) : Prop where
  absolute : PathText.isAbsolute p.toList = true
  fixed : simplifyPath p = p
  components : ∀ n ∈ PathText.components p.toList, n ≠ [] ∧ n ≠ PathText.dot ∧ n ≠ PathText.dotDot
  trailing : p ≠ "/" → p.toList.getLast? ≠ some '/'

namespace FullPath

theorem toList_ne_of_ne_root {p : FullPath} (hroot : p ≠ root) : p.text.toList ≠ ['/'] :=
  fun h => hroot (ext_text (String.toList_inj.mp h))

theorem isCanonical {p : FullPath} (habs : PathText.isAbsolute p.text.toList = true) :
    IsCanonical p.text where
  absolute := habs
  fixed := p.canonical
  components _ hn := p.normal.of_mem_components habs hn
  trailing hne := p.normal.getLast?_ne fun h => hne (String.toList_inj.mp h)

theorem toList_parentPath (p : FullPath) :
    p.parentPath.text.toList = PathText.parentPath p.text.toList := by
  show (String.ofList _).toList = _
  rw [String.toList_ofList]

theorem isAbsolute_parentPath {p : FullPath} (habs : PathText.isAbsolute p.text.toList = true) :
    PathText.isAbsolute p.parentPath.text.toList = true := by
  by_cases hroot : p = root
  · rw [hroot, parentPath_root]
    rfl
  · rw [toList_parentPath]
    exact (p.normal.parentPath_of_isAbsolute habs (toList_ne_of_ne_root hroot)).1

theorem isAbsolute_of_parentPath {p : FullPath}
    (hparent : PathText.isAbsolute p.parentPath.text.toList = true) :
    PathText.isAbsolute p.text.toList = true := by
  rw [toList_parentPath] at hparent
  exact p.normal.isAbsolute_of_parentPath hparent

/-- The last name of an absolute path can be listed. -/
theorem filename_ne {p : FullPath} (habs : PathText.isAbsolute p.text.toList = true)
    (hroot : p ≠ root) : p.filename ≠ "" ∧ p.filename ≠ "." ∧ p.filename ≠ ".." := by
  have hname : p.filename.toList = PathText.filename p.text.toList := String.toList_ofList
  obtain ⟨hempty, hdot, hdotDot⟩ :=
    p.normal.filename_of_isAbsolute habs (toList_ne_of_ne_root hroot)
  rw [← hname] at hempty hdot hdotDot
  exact ⟨fun h => hempty (congrArg String.toList h), fun h => hdot (congrArg String.toList h),
    fun h => hdotDot (congrArg String.toList h)⟩

theorem length_parentPath_lt {p : FullPath} (habs : PathText.isAbsolute p.text.toList = true)
    (hroot : p ≠ root) : p.parentPath.text.length < p.text.length := by
  rw [← String.length_toList, ← String.length_toList, toList_parentPath]
  exact (p.normal.parentPath_of_isAbsolute habs (toList_ne_of_ne_root hroot)).2.1

/-- A path is its parent and its last name with one separator between them. -/
theorem text_eq_join {p : FullPath} (habs : PathText.isAbsolute p.text.toList = true)
    (hroot : p ≠ root) :
    p.text = (if p.parentPath = root then "/" else p.parentPath.text ++ "/") ++ p.filename := by
  have hjoin := p.normal.join_eq
  have hne := (p.normal.parentPath_of_isAbsolute habs (toList_ne_of_ne_root hroot)).2.2
  have hname : p.filename.toList = PathText.filename p.text.toList := String.toList_ofList
  rw [PathText.join, ← toList_parentPath, ← hname] at hjoin
  rw [← toList_parentPath] at hne
  rw [← String.toList_inj, String.toList_append]
  split
  · rename_i hparent
    have hslash : root.text.toList = ['/'] := by decide
    rw [hparent, if_pos (Or.inr hslash)] at hjoin
    exact hjoin.symm
  · rename_i hparent
    rw [if_neg (not_or.mpr ⟨hne, toList_ne_of_ne_root hparent⟩)] at hjoin
    rw [← hjoin, String.toList_append, List.append_assoc]
    rfl

/-- The parents of a path lead to the root. -/
theorem exists_iterate_parentPath (p : FullPath)
    (habs : PathText.isAbsolute p.text.toList = true) : ∃ n, parentPath^[n] p = root := by
  -- The induction is on the length of the path, which every parent makes smaller.
  induction hlen : p.text.length using Nat.strong_induction_on generalizing p with
  | _ len ih =>
    by_cases hroot : p = root
    · exact ⟨0, hroot⟩
    · have hlt := length_parentPath_lt habs hroot
      obtain ⟨n, hn⟩ := ih _ (hlen ▸ hlt) p.parentPath (isAbsolute_parentPath habs) rfl
      exact ⟨n + 1, hn⟩

end FullPath

/-- What `set_fullpath` makes of an absolute path is canonical.  Below the root, so is its parent,
which is shorter, and the path is the parent and the last name with one separator between them.
The parents lead to the root, and no other canonical path has the same parent and last name. -/
theorem canonical_decomposes (s : String) (habs : PathText.isAbsolute s.toList = true) :
    let p := FullPath.set s
    IsCanonical p.text ∧
      (p ≠ .root → IsCanonical p.parentPath.text ∧
        p.parentPath.text.length < p.text.length ∧
        p.text = (if p.parentPath = .root then "/" else p.parentPath.text ++ "/") ++ p.filename) ∧
      (∃ n, FullPath.parentPath^[n] p = .root) ∧
      ∀ q : FullPath, IsCanonical q.text → q.parentPath = p.parentPath → q ≠ p →
        q.filename ≠ p.filename := by
  have hset : PathText.isAbsolute (FullPath.set s).text.toList = true := by
    rw [FullPath.isAbsolute_set, habs]
  refine ⟨FullPath.isCanonical hset, fun hroot => ⟨?_, ?_, ?_⟩, ?_, ?_⟩
  · exact FullPath.isCanonical (FullPath.isAbsolute_parentPath hset)
  · exact FullPath.length_parentPath_lt hset hroot
  · exact FullPath.text_eq_join hset hroot
  · exact FullPath.exists_iterate_parentPath _ hset
  · intro q _ hparent hne hname
    exact hne (FullPath.eq_of_parentPath_of_filename hparent hname)

/-- A path with repeated separators, dots and a `..` above the root. -/
theorem canonical_decomposes_dots :
    PathText.isAbsolute "/..//tests/./abc/x/../".toList = true ∧
      (FullPath.set "/..//tests/./abc/x/../").text = "/tests/abc" ∧
      IsCanonical (FullPath.set "/..//tests/./abc/x/../").text ∧
      IsCanonical (FullPath.set "/..//tests/./abc/x/../").parentPath.text := by
  have h := canonical_decomposes "/..//tests/./abc/x/../" (by decide)
  exact ⟨by decide, by decide, h.1, (h.2.1 (by decide)).1⟩

end Spkdfs
