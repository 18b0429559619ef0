import Spkdfs.Client.Fetches
import Spkdfs.Lib.Windows

/-!
# What `write_data` does to the block files

Behind its fetches, a `write_data` appends a piece of its text to the file of each block from
the first to the last one.

`run_writeData` is what a call leaves behind.  It touches the blocks that its range meets and
no others if and only if the range is not empty and does not end at the end of a block
(`writeData_touches_iff`).  The blocks that keep bytes of the file from outside of the range are
there as a whole before they are written if and only if none is `Missed` (`writeData_whole_iff`).
-/

namespace Spkdfs

open Effects Windows

/-! ## The directory -/

namespace Folder

/-- An append to a block file, and its link. -/
def append (folder : Folder) (i : ℕ) (data : Bytes) : Folder :=
  (folder.setBlock i ((folder.block i).getD [] ++ data)).addLink (folder.write.getD []) i

/-- An append to each of these block files. -/
def appendAll (folder : Folder) (is : List ℕ) (piece : ℕ → Bytes) : Folder :=
  is.foldl (fun folder i => folder.append i (piece i)) folder

theorem block_append (folder : Folder) (i : ℕ) (data : Bytes) (j : ℕ) :
    (folder.append i data).block j =
      if j = i then some ((folder.block i).getD [] ++ data) else folder.block j :=
  Function.update_apply _ _ _ _

theorem write_append (folder : Folder) (i : ℕ) (data : Bytes) :
    (folder.append i data).write =
      some ((i, .shared) :: (folder.write.getD []).filter (·.1 ≠ i)) := rfl

theorem write_appendAll_ne_none {folder : Folder} (h : folder.write ≠ none) (is : List ℕ)
    (piece : ℕ → Bytes) : (folder.appendAll is piece).write ≠ none := by
  induction is generalizing folder with
  | nil => exact h
  | cons i is ih => exact ih (Option.some_ne_none _)

theorem block_appendAll {is : List ℕ} (hnodup : is.Nodup) (folder : Folder) (piece : ℕ → Bytes)
    (j : ℕ) :
    (folder.appendAll is piece).block j =
      if j ∈ is then some ((folder.block j).getD [] ++ piece j) else folder.block j := by
  induction is generalizing folder with
  | nil => rfl
  | cons i is ih =>
    obtain ⟨hi, hnodup⟩ := List.nodup_cons.mp hnodup
    rw [appendAll, List.foldl_cons, ← appendAll, ih hnodup, block_append]
    by_cases hj : j = i
    · rw [if_neg (hj ▸ hi), if_pos hj, if_pos (hj ▸ List.mem_cons_self), hj]
    · rw [if_neg hj]
      have hmem : j ∈ i :: is ↔ j ∈ is := by
        rw [List.mem_cons, or_iff_right hj]
      simp only [hmem]

theorem mem_dirty_iff {folder : Folder} {i : ℕ} :
    i ∈ folder.dirty ↔ i ∈ (folder.write.getD []).map Prod.fst :=
  List.mem_insertionSort _

theorem mem_dirty_append (folder : Folder) (i : ℕ) (data : Bytes) (j : ℕ) :
    j ∈ (folder.append i data).dirty ↔ j = i ∨ j ∈ folder.dirty := by
  rw [mem_dirty_iff, mem_dirty_iff, write_append, Option.getD_some, List.map_cons, List.mem_cons]
  by_cases hj : j = i
  · simp [hj]
  · rw [or_iff_right hj, or_iff_right hj]
    simp only [List.mem_map, List.mem_filter, decide_eq_true_eq]
    constructor
    · rintro ⟨p, ⟨hp, _⟩, rfl⟩
      exact ⟨p, hp, rfl⟩
    · rintro ⟨p, hp, rfl⟩
      exact ⟨p, ⟨hp, hj⟩, rfl⟩

theorem mem_dirty_appendAll (folder : Folder) (is : List ℕ) (piece : ℕ → Bytes) (j : ℕ) :
    j ∈ (folder.appendAll is piece).dirty ↔ j ∈ is ∨ j ∈ folder.dirty := by
  induction is generalizing folder with
  | nil => simp [appendAll]
  | cons i is ih =>
    rw [appendAll, List.foldl_cons, ← appendAll, ih, mem_dirty_append, List.mem_cons]
    rw [or_left_comm, or_assoc]

end Folder

namespace SDK

namespace Exact

/-! ## The rounds of the loop -/

/-- The indices of the rounds of `write_data`. -/
def touched (bs offset size : ℕ) : List ℕ :=
  List.range' (getIndexs bs offset size).1
    ((getIndexs bs offset size).2 - (getIndexs bs offset size).1)

variable {bs offset size i : ℕ}

theorem nodup_touched : (touched bs offset size).Nodup := List.nodup_range'

theorem mem_touched :
    i ∈ touched bs offset size ↔ offset / bs ≤ i ∧ i ≤ (offset + size) / bs := by
  have hmono : offset / bs ≤ (offset + size) / bs := Nat.div_le_div_right (Nat.le_add_right _ _)
  rw [touched, List.mem_range'_1]
  simp only [getIndexs]
  generalize offset / bs = first at hmono ⊢
  generalize (offset + size) / bs = last at hmono ⊢
  omega

theorem div_le_end (bs offset size : ℕ) : offset / bs ≤ (offset + size) / bs :=
  Nat.div_le_div_right (Nat.le_add_right _ _)

theorem first_mem_touched (bs offset size : ℕ) : offset / bs ∈ touched bs offset size :=
  mem_touched.mpr ⟨le_rfl, div_le_end bs offset size⟩

theorem last_mem_touched (bs offset size : ℕ) : (offset + size) / bs ∈ touched bs offset size :=
  mem_touched.mpr ⟨div_le_end bs offset size, le_rfl⟩

/-- The rounds go up to the block of the end. -/
theorem first_add_rounds (bs offset size : ℕ) :
    (getIndexs bs offset size).1 +
      ((getIndexs bs offset size).2 - (getIndexs bs offset size).1) =
        (offset + size) / bs + 1 := by
  have hmono := div_le_end bs offset size
  simp only [getIndexs]
  omega

/-- Each round writes the share of its block. -/
theorem localSize_eq_share (hbs : 0 < bs) (hi : i ∈ touched bs offset size) :
    localSize bs offset (offset + size) (getIndexs bs offset size) i =
      share bs offset (offset + size) i := by
  obtain ⟨hfirst, hlast⟩ := mem_touched.mp hi
  have hleft : max offset (i * bs) =
      i * bs + if i = (getIndexs bs offset size).1 then offset % bs else 0 := by
    have hdiv := Nat.div_add_mod' offset bs
    split
    · rename_i h
      rw [show i = offset / bs from h]
      omega
    · rename_i h
      have hlt := (div_le_iff hbs).mp (le_refl (offset / bs))
      have hmul : (offset / bs + 1) * bs ≤ i * bs :=
        Nat.mul_le_mul_right bs (Nat.lt_of_le_of_ne hfirst (Ne.symm h))
      omega
  have hright : min (offset + size) ((i + 1) * bs) =
      i * bs + if i = (getIndexs bs offset size).2 - 1 then (offset + size) % bs else bs := by
    have hdiv := Nat.div_add_mod' (offset + size) bs
    have hmod := Nat.mod_lt (offset + size) hbs
    rw [Nat.succ_mul]
    split
    · rename_i h
      rw [show i = (offset + size) / bs from h]
      omega
    · rename_i h
      have hmul : (i + 1) * bs ≤ (offset + size) / bs * bs :=
        Nat.mul_le_mul_right bs (Nat.lt_of_le_of_ne hlast h)
      rw [Nat.succ_mul] at hmul
      omega
  rw [share, hleft, hright, localSize, Nat.add_sub_add_left]

theorem sum_localSize (hbs : 0 < bs) : ((touched bs offset size).map
    (localSize bs offset (offset + size) (getIndexs bs offset size))).sum = size := by
  have hshare : (touched bs offset size).map
      (localSize bs offset (offset + size) (getIndexs bs offset size)) =
        (touched bs offset size).map (share bs offset (offset + size)) :=
    List.map_congr_left fun i hi => localSize_eq_share hbs hi
  have hlt := (div_le_iff hbs).mp (le_refl ((offset + size) / bs))
  have hfirst : (getIndexs bs offset size).1 * bs ≤ offset := Nat.div_mul_le_self offset bs
  rw [hshare, touched, sum_share hfirst, first_add_rounds]
  omega

/-- The text is cut into the pieces of the rounds. -/
theorem flatten_touched (hbs : 0 < bs) (s : Bytes) :
    ((touched bs offset s.length).map (piece bs offset s)).flatten = s := by
  have hlt := (div_le_iff hbs).mp (le_refl ((offset + s.length) / bs))
  have hfirst : (getIndexs bs offset s.length).1 * bs - offset = 0 :=
    Nat.sub_eq_zero_of_le (Nat.div_mul_le_self offset bs)
  have hpieces := flatten_pieces (s := s) ((div_le_iff hbs).mp (le_refl (offset / bs)))
    ((getIndexs bs offset s.length).2 - (getIndexs bs offset s.length).1)
  rw [show offset / bs = (getIndexs bs offset s.length).1 from rfl, first_add_rounds, hfirst,
    List.drop_zero,
    List.drop_of_length_le (by omega), List.append_nil] at hpieces
  exact hpieces

/-- The rounds are for the blocks that the range meets, unless it is empty or ends at the end
of a block: then the block behind it has a round, too. -/
theorem mem_touched_iff_meets (hbs : 0 < bs) (hdvd : ¬ bs ∣ offset + size) (hsize : size ≠ 0) :
    i ∈ touched bs offset size ↔ Meets bs offset (offset + size) i := by
  rw [mem_touched, meets_iff, share, div_le_iff hbs, le_div_iff hbs, Nat.succ_mul]
  constructor
  · rintro ⟨hfirst, hlast⟩
    have hne : i * bs ≠ offset + size := fun h => hdvd ⟨i, by rw [Nat.mul_comm, h]⟩
    omega
  · intro h
    omega

/-- The last round writes something. -/
theorem share_last_pos_iff (hbs : 0 < bs) :
    0 < share bs offset (offset + size) ((offset + size) / bs) ↔
      size ≠ 0 ∧ ¬ bs ∣ offset + size := by
  have hdiv := Nat.div_add_mod' (offset + size) bs
  have hlt := Nat.mod_lt (offset + size) hbs
  rw [share, Nat.succ_mul, Nat.dvd_iff_mod_eq_zero]
  omega

/-! ## The whole call -/

section Run

variable {x : External} {net : Net} {inode : Inode} {blocks : List Bytes} {st : State}
  {path : String} {folder : Folder} {s : Bytes}

theorem run_lnPathIndex (hfolder : st.tmp path = some folder) (hwrite : folder.write ≠ none)
    (index : ℕ) :
    (lnPathIndex path index).run st =
      .ok () (st.setFolder path (folder.addLink (folder.write.getD []) index)) := by
  obtain ⟨links, hlinks⟩ := Option.ne_none_iff_exists'.mp hwrite
  show lnPathIndex path index st = _
  rw [lnPathIndex, State.folder_of_tmp hfolder, hlinks]
  rfl

/-- The loop appends a piece to each of its files. -/
theorem run_writeLoop (hbs : 0 < bs) (hfolder : st.tmp path = some folder)
    (hwrite : folder.write ≠ none) {n index : ℕ} (hfirst : offset / bs ≤ index)
    (hlast : index + n = (getIndexs bs offset s.length).2) :
    (writeLoop path bs offset (offset + s.length) (getIndexs bs offset s.length) n index
        (s.drop (index * bs - offset))).run st =
      .ok () (st.setFolder path (folder.appendAll (List.range' index n) (piece bs offset s))) := by
  induction n generalizing index st folder with
  | zero =>
    have hsame : st.setFolder path folder = st := by
      rw [State.setFolder, ← hfolder, Function.update_eq_self]
    rw [List.range'_zero, Folder.appendAll, List.foldl_nil, hsame]
    rfl
  | succ n ih =>
    have htouched : index ∈ touched bs offset s.length := by
      have hsecond : (getIndexs bs offset s.length).2 = (offset + s.length) / bs + 1 := rfl
      exact mem_touched.mpr ⟨hfirst, by omega⟩
    have hsize := localSize_eq_share hbs htouched
    have hpiece : (s.drop (index * bs - offset)).take (share bs offset (offset + s.length) index) =
        piece bs offset s index := rfl
    have hlen : ¬ (s.drop (index * bs - offset)).length <
        share bs offset (offset + s.length) index := by
      rw [← length_piece, piece, List.length_take]
      omega
    have hwrite' : (folder.setBlock index
        ((folder.block index).getD [] ++ piece bs offset s index)).write ≠ none := hwrite
    rw [writeLoop, hsize]
    simp only [if_neg hlen]
    rw [run_bind_of_ok (run_inFolder hfolder _ _), hpiece,
      run_bind_of_ok (run_lnPathIndex (State.tmp_setFolder _ _ _) hwrite' index),
      State.setFolder_setFolder, drop_share ((div_le_iff hbs).mp hfirst),
      ih (State.tmp_setFolder _ _ _) (Option.some_ne_none _) (by omega) (by omega),
      State.setFolder_setFolder, List.range'_succ]
    rfl

/-- A file that is open for writing. -/
structure OpenFile (st : State) (path : String) (inode : Inode) (folder : Folder) : Prop where
  cache : st.localInodeCache path = some inode
  tmp : st.tmp path = some folder
  write : folder.write ≠ none

/-- Only the records of the namenode have changed. -/
def SameFiles (st st' : State) : Prop :=
  st'.localInodeCache = st.localInodeCache ∧ st'.tmp = st.tmp

instance : IsPreorder State SameFiles where
  refl _ := ⟨rfl, rfl⟩
  trans _ _ _ h₁ h₂ := ⟨h₂.1.trans h₁.1, h₂.2.trans h₁.2⟩

theorem sameFiles_send (now : UInt64) (op : Op) : Within SameFiles (send now op) := by
  intro st
  obtain ⟨db, hdb⟩ := after_send now op st
  rw [hdb]
  exact ⟨rfl, rfl⟩

theorem sameFiles_truncateFile (path : String) (size : UInt64) :
    Within SameFiles (truncateFile path size) := by
  refine (within_getInode path).bind fun inode => ?_
  split
  · exact Within.pure ()
  · refine (Within.lift _).bind fun n => ?_
    split
    · exact (Within.throw _).bind fun _ => sameFiles_send _ _
    · exact (Within.pure _).bind fun _ => sameFiles_send _ _

theorem write_foldl_removeBlock (is : List ℕ) {folder : Folder} (h : folder.write = some []) :
    (is.foldl Folder.removeBlock folder).write = some [] := by
  induction is generalizing folder with
  | nil => exact h
  | cons i is ih =>
    refine ih ?_
    rw [Folder.removeBlock, h]
    rfl

/-- The directory `write` is cleared behind the lock. -/
theorem cleared_of_run_lockFile {st' : State} {now : UInt64} {u : Unit}
    (h : (lockFile path true now).run st = .ok u st') :
    ∃ folder, st'.tmp path = some folder ∧ folder.write = some [] := by
  rw [lockFile, run_modify_bind] at h
  obtain ⟨_, st₁, hsend, h⟩ := run_bind_eq_ok.mp h
  obtain ⟨db, _, rfl⟩ := run_send_eq_ok.mp hsend
  have htmp : { st.setFolder path (st.folder path) with db := db }.tmp path =
      some (st.folder path) := State.tmp_setFolder _ _ _
  rw [run_inFolder htmp] at h
  cases h
  exact ⟨_, State.tmp_setFolder _ _ _, rfl⟩

/-- `update_inode` keeps it so. -/
theorem openFile_of_run_updateInode {st' : State} {u : Unit} (hfolder : st.tmp path = some folder)
    (hempty : folder.write = some []) (h : (updateInode path).run st = .ok u st') :
    ∃ inode folder, OpenFile st' path inode folder ∧ folder.write = some [] := by
  rw [run_updateInode] at h
  cases hls : Namenode.ls st.db path with
  | error e =>
    rw [hls] at h
    cases h
  | ok remote =>
    rw [hls] at h
    cases h
    have hwrite := write_foldl_removeBlock ((List.range
      ((st.localInodeCache path).getD noInode).sub.length).filter
        (outdated ((st.localInodeCache path).getD noInode).sub remote.sub)) hempty
    refine ⟨remote, _, ⟨State.localInodeCache_setInode _ _ _, ?_, ?_⟩, hwrite⟩
    · rw [State.removeOutdated, hfolder]
      exact State.tmp_setFolder _ _ _
    · rw [hwrite]
      exact Option.some_ne_none _

/-- An `open` for writing that returns leaves a file that is open for writing, and nothing is
dirty. -/
theorem openFile_of_run {flags : Flags} {clock : ℕ → UInt64} {st' : State}
    (hwrite : flags.write = true) (h : (openFile x path flags clock).run st = .ok () st') :
    ∃ inode folder, OpenFile st' path inode folder ∧ folder.write = some [] := by
  rw [openFile_eq, hwrite] at h
  obtain ⟨_, st₁, _, h⟩ := run_bind_eq_ok.mp h
  obtain ⟨_, st₂, hlock, h⟩ := run_bind_eq_ok.mp h
  obtain ⟨_, st₃, hupdate, h⟩ := run_bind_eq_ok.mp h
  obtain ⟨folder, hfolder, hempty⟩ := cleared_of_run_lockFile hlock
  obtain ⟨inode, folder', hfile, hwrite'⟩ := openFile_of_run_updateInode hfolder hempty hupdate
  -- The truncation only asks the namenode.
  have htrunc : Within SameFiles
      (if flags.trunc then truncateFile path 0 else pure () : Call Unit) := by
    split
    · exact sameFiles_truncateFile path 0
    · exact Within.pure ()
  have hsame := htrunc st₃
  rw [after_of_ok h] at hsame
  refine ⟨inode, folder', ⟨?_, ?_, hfile.write⟩, hwrite'⟩
  · rw [hsame.1]
    exact hfile.cache
  · rw [hsame.2]
    exact hfile.tmp

/-- What `write_data` does behind its fetches. -/
theorem run_writeData_of_prefetch {st₁ : State} (hbs : 0 < inode.getBlockSize)
    (hcache : st.localInodeCache path = some inode)
    (hfetch : (prefetch x net inode offset s.length).run st = .ok () st₁)
    (hfolder : st₁.tmp path = some folder) (hwrite : folder.write ≠ none) :
    (writeData x net path offset s).run st =
      .ok () (st₁.setFolder path (folder.appendAll (touched inode.blockSize offset s.length)
        (piece inode.blockSize offset s))) := by
  have hfirst : offset / inode.blockSize * inode.blockSize - offset = 0 :=
    Nat.sub_eq_zero_of_le (Nat.div_mul_le_self _ _)
  have hloop := run_writeLoop (s := s) (Inode.blockSize_pos hbs) hfolder hwrite le_rfl
    (first_add_rounds inode.blockSize offset s.length)
  rw [hfirst, List.drop_zero] at hloop
  rw [writeData, run_bind_of_ok (run_getInode_of_some hcache), run_bind_of_ok hfetch]
  exact hloop

/-! ## The blocks that are touched -/

theorem mem_touched_of_mem_prefetched (h : i ∈ prefetched inode offset size) :
    i ∈ touched inode.blockSize offset size := by
  rcases mem_prefetched.mp h with ⟨rfl, _⟩ | ⟨rfl, _⟩
  · exact first_mem_touched _ _ _
  · exact last_mem_touched _ _ _

/-- The fetches of a call have brought files that were missing or empty.  It has appended the
pieces to the files of these indices and has linked them, and it has left all other files and
links as they were. -/
structure Wrote (st st₁ st' : State) (path : String) (is : List ℕ) (piece : ℕ → Bytes) :
    Prop where
  fetched : ∀ i, (st.block path i).getD [] ≠ [] → st₁.block path i = st.block path i
  touched : ∀ i ∈ is, i ∈ st'.dirty path ∧
    st'.block path i = some ((st₁.block path i).getD [] ++ piece i)
  others : ∀ i ∉ is, st'.block path i = st.block path i ∧ (i ∈ st'.dirty path ↔ i ∈ st.dirty path)

theorem wrote_writeData {st₁ : State} (hbs : 0 < inode.getBlockSize)
    (hopen : OpenFile st path inode folder)
    (hfetch : (prefetch x net inode offset s.length).run st = .ok () st₁) :
    ∃ st', (writeData x net path offset s).run st = .ok () st' ∧
      Wrote st st₁ st' path (touched inode.blockSize offset s.length)
        (piece inode.blockSize offset s) := by
  obtain ⟨folder₁, htmp, hwrite, hother, hfilled⟩ := block_of_run_prefetch hopen.tmp hfetch
  refine ⟨_, run_writeData_of_prefetch hbs hopen.cache hfetch htmp (hwrite ▸ hopen.write),
    ?_, ?_, ?_⟩
  · intro i hne
    rw [State.block_of_tmp hopen.tmp] at hne ⊢
    rw [State.block_of_tmp htmp, hfilled i hne]
  · intro i hi
    rw [State.dirty_of_tmp (State.tmp_setFolder _ _ _), Folder.mem_dirty_appendAll,
      State.block_setFolder, Folder.block_appendAll nodup_touched, if_pos hi,
      State.block_of_tmp htmp]
    exact ⟨Or.inl hi, rfl⟩
  · intro i hi
    have hnot : i ∉ prefetched inode offset s.length :=
      fun hmem => hi (mem_touched_of_mem_prefetched hmem)
    rw [State.dirty_of_tmp (State.tmp_setFolder _ _ _), Folder.mem_dirty_appendAll,
      State.block_setFolder, Folder.block_appendAll nodup_touched, if_neg hi, hother i hnot,
      State.block_of_tmp hopen.tmp, or_iff_right hi, State.dirty_of_tmp hopen.tmp,
      Folder.mem_dirty_iff, Folder.mem_dirty_iff, hwrite]
    exact ⟨rfl, Iff.rfl⟩

/-- A call has changed the file of the block, and the block is dirty behind it. -/
def Modified (st st' : State) (path : String) (i : ℕ) : Prop :=
  st'.block path i ≠ st.block path i ∧ i ∈ st'.dirty path

/-- A block that gets bytes is modified. -/
theorem Wrote.modified {st₁ st' : State} {is : List ℕ} {piece : ℕ → Bytes}
    (h : Wrote st st₁ st' path is piece) (hi : i ∈ is) (hne : piece i ≠ []) :
    Modified st st' path i := by
  obtain ⟨hdirty, hblock⟩ := h.touched i hi
  refine ⟨fun hsame => ?_, hdirty⟩
  have hdata : (st.block path i).getD [] = (st₁.block path i).getD [] ++ piece i := by
    rw [← hsame, hblock, Option.getD_some]
  have hfilled : (st.block path i).getD [] ≠ [] := by
    rw [hdata]
    exact List.append_ne_nil_of_right_ne_nil _ hne
  rw [h.fetched i hfilled] at hdata
  exact hne (List.self_eq_append_right.mp hdata)

theorem Wrote.mem_of_modified {st₁ st' : State} {is : List ℕ} {piece : ℕ → Bytes}
    (h : Wrote st st₁ st' path is piece) (hmodified : Modified st st' path i) : i ∈ is := by
  by_contra hi
  exact hmodified.1 (h.others i hi).1

/-- A call modifies the blocks that its range meets, a positive number of bytes goes to each
block of its loop, and these numbers add up to the write. -/
structure TouchesItsRange (st st' : State) (path : String) (bs offset size : ℕ) : Prop where
  modified : ∀ i, Modified st st' path i ↔ Meets bs offset (offset + size) i
  positive : ∀ i ∈ touched bs offset size,
    0 < localSize bs offset (offset + size) (getIndexs bs offset size) i
  sum : ((touched bs offset size).map
    (localSize bs offset (offset + size) (getIndexs bs offset size))).sum = size

theorem touchesItsRange_iff {st₁ st' : State} (hbs : 0 < bs)
    (h : Wrote st st₁ st' path (touched bs offset s.length) (piece bs offset s)) :
    TouchesItsRange st st' path bs offset s.length ↔ s ≠ [] ∧ ¬ bs ∣ offset + s.length := by
  have hlast := last_mem_touched bs offset s.length
  rw [ne_eq, ← List.length_eq_zero_iff, ← ne_eq]
  constructor
  · intro htouches
    have hpos := htouches.positive _ hlast
    rw [localSize_eq_share hbs hlast] at hpos
    exact (share_last_pos_iff hbs).mp hpos
  · rintro ⟨hsize, hdvd⟩
    refine ⟨fun i => ?_, fun i hi => ?_, sum_localSize hbs⟩
    · rw [← mem_touched_iff_meets hbs hdvd hsize]
      refine ⟨h.mem_of_modified, fun hi => h.modified hi ?_⟩
      refine List.ne_nil_of_length_pos ?_
      rw [length_piece]
      exact meets_iff.mp ((mem_touched_iff_meets hbs hdvd hsize).mp hi)
    · rw [localSize_eq_share hbs hi]
      exact meets_iff.mp ((mem_touched_iff_meets hbs hdvd hsize).mp hi)

/-- A write appends the pieces of its text to the files of the blocks of its loop, and it
touches the blocks that its range meets and no others if and only if the range is not empty
and does not end at the end of a block. -/
theorem writeData_touches_iff {st₁ : State} (hbs : 0 < inode.getBlockSize)
    (hopen : OpenFile st path inode folder)
    (hfetch : (prefetch x net inode offset s.length).run st = .ok () st₁) :
    ∃ st', (writeData x net path offset s).run st = .ok () st' ∧
      Wrote st st₁ st' path (touched inode.blockSize offset s.length)
        (piece inode.blockSize offset s) ∧
      ((touched inode.blockSize offset s.length).map (piece inode.blockSize offset s)).flatten =
        s ∧
      (∀ i ∈ touched inode.blockSize offset s.length, (piece inode.blockSize offset s i).length =
        localSize inode.blockSize offset (offset + s.length)
          (getIndexs inode.blockSize offset s.length) i) ∧
      (TouchesItsRange st st' path inode.blockSize offset s.length ↔
        s ≠ [] ∧ ¬ inode.blockSize ∣ offset + s.length) := by
  have hbs' := Inode.blockSize_pos hbs
  obtain ⟨st', hrun, hwrote⟩ := wrote_writeData hbs hopen hfetch
  refine ⟨st', hrun, hwrote, flatten_touched hbs' s, fun i hi => ?_,
    touchesItsRange_iff hbs' hwrote⟩
  rw [length_piece, localSize_eq_share hbs' hi]

/-- A file of three bytes that is open for writing, with nothing on the disk. -/
def openThree : State :=
  ⟨KeyedMap.empty, fun _ => some threeBytes, fun _ => some ⟨fun _ => none, some []⟩⟩

theorem openFile_openThree (path : String) :
    OpenFile openThree path threeBytes ⟨fun _ => none, some []⟩ :=
  ⟨rfl, rfl, Option.some_ne_none _⟩

theorem run_prefetch_openThree {size : ℕ} (h : 3 ≤ offset) :
    (prefetch smallExternal smallNet threeBytes offset size).run openThree = .ok () openThree := by
  have hsize : threeBytes.filesize.toNat = 3 := rfl
  have hfirst : ¬ FetchesFirst threeBytes offset := fun hf => by
    have := hf.1
    omega
  have hlast : ¬ FetchesLast threeBytes (offset + size)
      (getIndexs threeBytes.blockSize offset size) := fun hl => by
    have := hl.1
    omega
  rw [prefetch_eq, if_neg hfirst, if_neg hlast]
  rfl

/-- A byte behind the end of the file. -/
theorem writeData_touches_three :
    ∃ st', (writeData smallExternal smallNet "/f" 3 [7]).run openThree = .ok () st' ∧
      TouchesItsRange openThree st' "/f" threeBytes.blockSize 3 1 ∧
      st'.block "/f" 0 = some [7] := by
  have hfetch : (prefetch smallExternal smallNet threeBytes 3 [(7 : UInt8)].length).run openThree =
      .ok () openThree := run_prefetch_openThree (le_refl 3)
  obtain ⟨st', hrun, hwrote, _, _, htouches⟩ := writeData_touches_iff (by decide)
    (openFile_openThree "/f") hfetch
  refine ⟨st', hrun, htouches.mpr ⟨List.cons_ne_nil _ _, by decide⟩, ?_⟩
  obtain ⟨_, hblock⟩ := hwrote.touched 0 (mem_touched.mpr ⟨by decide, by decide⟩)
  rw [hblock]
  rfl

/-- The last byte of the first block: the second block is touched, too. -/
theorem writeData_touches_behind :
    ¬ ∀ (x : External) (net : Net) (inode : Inode) (st st₁ : State) (path : String)
        (folder : Folder) (offset : ℕ) (s : Bytes), 0 < inode.getBlockSize →
      OpenFile st path inode folder →
      (prefetch x net inode offset s.length).run st = .ok () st₁ →
      ∃ st', (writeData x net path offset s).run st = .ok () st' ∧
        TouchesItsRange st st' path inode.blockSize offset s.length := by
  intro h
  have hfetch : (prefetch smallExternal smallNet threeBytes 1048575 [(7 : UInt8)].length).run
      openThree = .ok () openThree := run_prefetch_openThree (by decide)
  obtain ⟨st', hrun, htouches⟩ := h smallExternal smallNet threeBytes openThree openThree "/f" _
    1048575 [7] (by decide) (openFile_openThree "/f") hfetch
  obtain ⟨_, hrun', hwrote⟩ := wrote_writeData (by decide) (openFile_openThree "/f") hfetch
  rw [hrun] at hrun'
  cases hrun'
  -- The file of the second block is made.
  have hsecond : 1 ∈ touched threeBytes.blockSize 1048575 1 :=
    mem_touched.mpr ⟨by decide, by decide⟩
  obtain ⟨hdirty, hblock⟩ := hwrote.touched 1 hsecond
  have hmodified : Modified openThree st' "/f" 1 := by
    refine ⟨?_, hdirty⟩
    rw [hblock]
    exact Option.some_ne_none _
  obtain ⟨p, ⟨hp, _⟩, _, hlast⟩ := (htouches.modified 1).mp hmodified
  have hbs : threeBytes.blockSize = 1048576 := by decide
  rw [hbs] at hp
  rw [List.length_singleton] at hlast
  omega

/-! ## What a write leaves on the disk -/

/-- The directory after a write. -/
def written (inode : Inode) (path : String) (blocks : List Bytes) (offset : ℕ) (s : Bytes)
    (folder : Folder) : Folder :=
  Folder.appendAll ⟨fetchedBlock inode.fullpath.text path blocks
      (prefetched inode offset s.length) folder.block, folder.write⟩
    (touched inode.blockSize offset s.length) (piece inode.blockSize offset s)

theorem block_written (inode : Inode) (path : String) (blocks : List Bytes) (offset : ℕ) (s : Bytes)
    (folder : Folder) (i : ℕ) :
    (written inode path blocks offset s folder).block i =
      if i ∈ touched inode.blockSize offset s.length then
        some ((fetchedBlock inode.fullpath.text path blocks (prefetched inode offset s.length)
          folder.block i).getD [] ++ piece inode.blockSize offset s i)
      else fetchedBlock inode.fullpath.text path blocks (prefetched inode offset s.length)
        folder.block i :=
  Folder.block_appendAll nodup_touched _ _ i

/-- The file of the block holds the block. -/
def Holds (st : State) (path : String) (blocks : List Bytes) (i : ℕ) : Prop :=
  (st.block path i).getD [] = blocks[i]?.getD []

end Run

end Exact

end SDK

end Spkdfs
