import Spkdfs.Client.Alignment
import Spkdfs.Client.Writes

/-!
# The length that `fsync` records

`fsync` takes the length of the file from the last dirty block: its index, and the size of
its file.  That file holds what was fetched and what every write has appended to it, so that
the sum is the end of the writes only if each write appends where its bytes belong.

`Tight` is a condition on one write.  In a run of writes that all meet it, `fsync` sends the
largest end of a write, or the size of the file at `open` (`sends_of_tight`).
-/

namespace Spkdfs

open RocksDB Effects Windows

namespace SDK

namespace Exact

/-! ## `fsync` -/

/-- `read_file` of a name in `write`. -/
def readLink (folder : Folder) (i : ℕ) : Except Abrupt Bytes :=
  match folder.link i with
  | none => .error (.thrown (.runtime "filesystem error: cannot get file size"))
  | some data => .ok data

variable (x : External)

/-- The loop of `fsync`. -/
def fsyncLoop (path : String) (inode : Inode) :
    List ℕ → List Uploads → List String → ℕ → Call (List String × ℕ)
  | [], _, sub, lastSize => return (sub, lastSize)
  | _ :: _, [], _, _ => throw .running
  | i :: res, up :: ups, sub, _ => do
    let block ← lift (readLink ((← getThe State).folder path) i)
    let entry ← lift (encodeEntry x inode block up)
    inFolder path "" fun folder => folder.removeLink i
    fsyncLoop path inode res ups (sub.set i entry) block.length

/-- The size and the list that `fsync` sends. -/
def fsyncRequest (path : String) (res : List ℕ) (last : ℕ) (sync : Sync) :
    Call (ℕ × List String) := do
  let inode ← getInode path
  let (sub, lastSize) ← fsyncLoop x path inode res sync.ups (startList inode last) 0
  return (fsyncSize inode last lastSize, sub)

/-- `SDK::fsync`. -/
def fsync (path : String) (sync : Sync) : Call Unit := fun st =>
  match (st.dirty path).getLast? with
  | none => .ok () st
  | some last => (fsyncRequest x path (st.dirty path) last sync >>= fun p =>
      sendUnchecked sync.delivered (.putOk path (.ofNat p.1) p.2)) st

/-- The `put_ok` of an `fsync` has this size. -/
def Sends (path : String) (sync : Sync) (st : State) (size : ℕ) : Prop :=
  ∃ last sub st', (st.dirty path).getLast? = some last ∧
    (fsyncRequest x path (st.dirty path) last sync).run st = .ok (size, sub) st' ∧
      (fsync x path sync).run st =
        (sendUnchecked sync.delivered (.putOk path (.ofNat size) sub)).run st'

variable {x} {path : String} {inode : Inode} {st : State} {folder : Folder}

/-- The size that the loop of `fsync` ends with. -/
def lastLength (folder : Folder) (res : List ℕ) (size : ℕ) : ℕ :=
  match res.getLast? with
  | none => size
  | some i => ((folder.link i).getD []).length

theorem lastLength_cons (folder : Folder) (i : ℕ) (res : List ℕ) (size : ℕ) :
    lastLength folder (i :: res) size =
      lastLength folder res ((folder.link i).getD []).length := by
  cases res with
  | nil => rfl
  | cons j res => rfl

theorem lastLength_removeLink {i : ℕ} {res : List ℕ} (hi : i ∉ res) (folder : Folder) (size : ℕ) :
    lastLength (folder.removeLink i) res size = lastLength folder res size := by
  rw [lastLength, lastLength]
  cases h : res.getLast? with
  | none => rfl
  | some j =>
    have hj : j ≠ i := fun heq => hi (heq ▸ List.mem_of_getLast? h)
    simp only [link_removeLink, if_neg hj]

/-- Every block of the list has a name in `write`, and its upload gives an entry. -/
def AllEncoded (x : External) (inode : Inode) (folder : Folder) : List ℕ → List Uploads → Prop
  | [], _ => True
  | _ :: _, [] => False
  | i :: res, up :: ups =>
    (∃ data entry, folder.link i = some data ∧ encodeEntry x inode data up = .ok entry) ∧
      AllEncoded x inode folder res ups

theorem AllEncoded.removeLink {i : ℕ} {res : List ℕ} {ups : List Uploads} (hi : i ∉ res)
    (h : AllEncoded x inode folder res ups) :
    AllEncoded x inode (folder.removeLink i) res ups := by
  induction res generalizing ups with
  | nil => trivial
  | cons j res ih =>
    cases ups with
    | nil => exact h
    | cons up ups =>
      obtain ⟨⟨data, entry, hdata, hentry⟩, hrest⟩ := h
      obtain ⟨hij, hi⟩ := not_or.mp (fun hmem => hi (List.mem_cons.mpr hmem))
      refine ⟨⟨data, entry, ?_, hentry⟩, ih hi hrest⟩
      rw [link_removeLink, if_neg (Ne.symm hij)]
      exact hdata

/-- The loop ends with the size of the last block. -/
theorem run_fsyncLoop (hfolder : st.tmp path = some folder) {res : List ℕ} (hnodup : res.Nodup)
    {ups : List Uploads} (hups : AllEncoded x inode folder res ups) (sub : List String)
    (size : ℕ) :
    ∃ sub' st', (fsyncLoop x path inode res ups sub size).run st =
      .ok (sub', lastLength folder res size) st' := by
  induction res generalizing ups sub size st folder with
  | nil => exact ⟨sub, st, rfl⟩
  | cons i res ih =>
    obtain ⟨hi, hnodup⟩ := List.nodup_cons.mp hnodup
    cases ups with
    | nil => cases hups
    | cons up ups =>
      obtain ⟨⟨data, entry, hdata, hentry⟩, hrest⟩ := hups
      have hread : readLink folder i = .ok data := by
        rw [readLink, hdata]
      obtain ⟨sub', st', hrun⟩ := ih (State.tmp_setFolder st path (folder.removeLink i)) hnodup
        (hrest.removeLink hi) (sub.set i entry) data.length
      refine ⟨sub', st', ?_⟩
      rw [fsyncLoop, run_get_bind, State.folder_of_tmp hfolder, hread,
        run_bind_of_ok (run_lift_eq_ok.mpr ⟨rfl, rfl⟩),
        run_bind_of_ok (run_lift_eq_ok.mpr ⟨hentry, rfl⟩),
        run_bind_of_ok (run_inFolder hfolder _ _), hrun, lastLength_removeLink hi, lastLength_cons,
        hdata, Option.getD_some]

/-- `fsync` sends one size. -/
theorem Sends.unique {sync : Sync} {size size' : ℕ} (h : Sends x path sync st size)
    (h' : Sends x path sync st size') : size = size' := by
  obtain ⟨last, sub, st₁, hlast, hrun, _⟩ := h
  obtain ⟨last', sub', st₁', hlast', hrun', _⟩ := h'
  obtain rfl := Option.some.inj (hlast.symm.trans hlast')
  rw [hrun] at hrun'
  cases hrun'
  rfl

/-- What `fsync` asks for. -/
theorem sends_of_allEncoded (hcache : st.localInodeCache path = some inode)
    (hfolder : st.tmp path = some folder) {last : ℕ} (hlast : folder.dirty.getLast? = some last)
    (hnodup : folder.dirty.Nodup) {sync : Sync}
    (hups : AllEncoded x inode folder folder.dirty sync.ups) :
    Sends x path sync st (fsyncSize inode last ((folder.link last).getD []).length) := by
  obtain ⟨sub, st', hloop⟩ := run_fsyncLoop hfolder hnodup hups (startList inode last) 0
  have hlength : lastLength folder folder.dirty 0 = ((folder.link last).getD []).length := by
    rw [lastLength, hlast]
  rw [hlength] at hloop
  have hdirty := State.dirty_of_tmp hfolder
  have hrequest : (fsyncRequest x path folder.dirty last sync).run st =
      .ok (fsyncSize inode last ((folder.link last).getD []).length, sub) st' := by
    rw [fsyncRequest, run_bind_of_ok (run_getInode_of_some hcache), run_bind_of_ok hloop]
    rfl
  refine ⟨last, sub, st', hdirty ▸ hlast, hdirty ▸ hrequest, ?_⟩
  show fsync x path sync st = _
  rw [fsync, hdirty, hlast]
  exact run_bind_of_ok hrequest _

/-! ## `fsync` below 2 GiB -/

/-- What the loop answers is the length of a file that it has read. -/
theorem snd_of_run_fsyncLoop {res : List ℕ} {ups : List Uploads} {sub sub' : List String}
    {size size' : ℕ} {st' : State}
    (h : (fsyncLoop x path inode res ups sub size).run st = .ok (sub', size') st') :
    size' = size ∨ ∃ i ∈ res, ∃ data, (st.folder path).link i = some data ∧
      size' = data.length := by
  induction res generalizing ups sub size st with
  | nil =>
    cases h
    exact Or.inl rfl
  | cons i res ih =>
    cases ups with
    | nil => cases h
    | cons up ups =>
      simp only [fsyncLoop, run_get_bind, run_bind_eq_ok, run_lift_eq_ok, run_inFolder_eq_ok] at h
      obtain ⟨block, _, ⟨hread, rfl⟩, entry, st, ⟨_, rfl⟩, _, _, ⟨folder, hfolder, rfl⟩, h⟩ := h
      have hlink : (st.folder path).link i = some block := by
        rw [readLink] at hread
        split at hread
        · cases hread
        · rename_i hlink
          rw [hlink, Except.ok.inj hread]
      rcases ih h with hsize | ⟨j, hj, data, hdata, hsize⟩
      · exact Or.inr ⟨i, List.mem_cons_self, block, hlink, hsize⟩
      · refine Or.inr ⟨j, List.mem_cons_of_mem i hj, data, ?_, hsize⟩
        rw [State.folder_of_tmp (State.tmp_setFolder _ _ _), link_removeLink] at hdata
        rw [State.folder_of_tmp hfolder]
        split at hdata
        · cases hdata
        · exact hdata

/-- The files that `fsync` reads are shorter than 2 GiB. -/
theorem run_fsyncLoop_exact {res : List ℕ} (ups : List Uploads) (sub : List String) (size : ℕ)
    (hsmall : ∀ i ∈ res, ∀ data, (st.folder path).link i = some data → data.length < 2 ^ 31) :
    (SDK.fsyncLoop x path inode res ups sub size).run st =
      (fsyncLoop x path inode res ups sub size).run st := by
  induction res generalizing ups sub size st with
  | nil => rfl
  | cons i res ih =>
    cases ups with
    | nil => rfl
    | cons up ups =>
      have hread : (st.folder path).readLink i = readLink (st.folder path) i := by
        rw [Folder.readLink, readLink]
        cases hlink : (st.folder path).link i with
        | none => rfl
        | some data => exact readFile_of_lt (hsmall i List.mem_cons_self data hlink)
      rw [SDK.fsyncLoop, fsyncLoop, run_get_bind, run_get_bind, hread]
      refine run_bind_congr rfl fun block st₁ hblock => ?_
      obtain ⟨_, rfl⟩ := run_lift_eq_ok.mp hblock
      refine run_bind_congr rfl fun entry st₂ hentry => ?_
      obtain ⟨_, rfl⟩ := run_lift_eq_ok.mp hentry
      refine run_bind_congr rfl fun _ st₃ hremove => ?_
      obtain ⟨folder, hfolder, rfl⟩ := run_inFolder_eq_ok.mp hremove
      refine ih ups _ _ fun j hj data hdata => hsmall j (List.mem_cons_of_mem i hj) data ?_
      rw [State.folder_of_tmp (State.tmp_setFolder _ _ _), link_removeLink] at hdata
      rw [State.folder_of_tmp hfolder]
      split at hdata
      · cases hdata
      · exact hdata

/-- For a file that ends below 2 GiB, `fsync` is what it is in exact arithmetic. -/
theorem run_fsync_exact (hcache : st.localInodeCache path = some inode)
    (hbs : 0 < inode.getBlockSize) (sync : Sync)
    (hsmall : ∀ last, (st.dirty path).getLast? = some last → fsyncSize inode last 0 < 2 ^ 31 ∧
      ∀ i ∈ st.dirty path, ∀ data, (st.folder path).link i = some data →
        fsyncSize inode last data.length < 2 ^ 31) :
    (SDK.fsync x path sync).run st = (fsync x path sync).run st := by
  show SDK.fsync x path sync st = fsync x path sync st
  rw [SDK.fsync, fsync]
  cases hlast : (st.dirty path).getLast? with
  | none => rfl
  | some last =>
    obtain ⟨hzero, hdata⟩ := hsmall last hlast
    have hend : ∀ size, fsyncSize inode last size < 2 ^ 31 →
        inode.filesize.toNat < 2 ^ 63 ∧ last < 2 ^ 31 ∧ size < 2 ^ 31 := by
      intro size hsize
      have hmul := Nat.le_mul_of_pos_right last (Inode.blockSize_pos hbs)
      rw [fsyncSize] at hsize
      omega
    have hsize : ∀ size, fsyncSize inode last size < 2 ^ 31 →
        SDK.fsyncSize inode last size = .ofNat (fsyncSize inode last size) := by
      intro size hsize
      obtain ⟨hfile, hlast, hlength⟩ := hend size hsize
      rw [← (toNat_fsyncSize_iff hbs hfile hlast hlength).mpr hsize, UInt64.ofNat_toNat]
    simp only
    rw [if_neg (Nat.not_le.mpr (hend 0 hzero).2.1)]
    show (SDK.syncBlocks x path (st.dirty path) last sync).run st =
      (fsyncRequest x path (st.dirty path) last sync >>= _).run st
    rw [SDK.syncBlocks, fsyncRequest, bind_assoc, run_bind_of_ok (run_getInode_of_some hcache),
      run_bind_of_ok (run_getInode_of_some hcache), bind_assoc]
    refine run_bind_congr (run_fsyncLoop_exact _ _ _ fun i hi data hlink =>
      (hend _ (hdata i hi data hlink)).2.2) fun p st₁ hloop => ?_
    obtain ⟨sub, size⟩ := p
    rw [pure_bind]
    show (sendUnchecked _ (.putOk path (SDK.fsyncSize inode last size) sub)).run st₁ = _
    rcases snd_of_run_fsyncLoop hloop with rfl | ⟨i, hi, data, hlink, rfl⟩
    · rw [hsize 0 hzero]
    · rw [hsize _ (hdata i hi data hlink)]

/-! ## The links -/

/-- Each name in `write` is there once, and it shares its block file. -/
def Linked (folder : Folder) : Prop :=
  ((folder.write.getD []).map Prod.fst).Nodup ∧
    ∀ p ∈ folder.write.getD [], p.2 = Link.shared

theorem Linked.append (h : Linked folder) (i : ℕ) (data : Bytes) :
    Linked (folder.append i data) := by
  obtain ⟨hnodup, hshared⟩ := h
  rw [Linked, Folder.write_append, Option.getD_some, List.map_cons, List.nodup_cons]
  refine ⟨⟨?_, ?_⟩, fun p hp => ?_⟩
  · intro hmem
    obtain ⟨p, hp, hfst⟩ := List.mem_map.mp hmem
    have hne := (List.mem_filter.mp hp).2
    simp [hfst] at hne
  · exact hnodup.sublist (List.filter_sublist.map Prod.fst)
  · rcases List.mem_cons.mp hp with rfl | hp
    · rfl
    · exact hshared p (List.mem_of_mem_filter hp)

theorem Linked.appendAll (h : Linked folder) (is : List ℕ) (piece : ℕ → Bytes) :
    Linked (folder.appendAll is piece) := by
  induction is generalizing folder with
  | nil => exact h
  | cons i is ih => exact ih (h.append i (piece i))

theorem Linked.nodup (h : Linked folder) : folder.dirty.Nodup :=
  (List.perm_insertionSort _ _).nodup_iff.mpr h.1

theorem Linked.link (h : Linked folder) {i : ℕ} (hi : i ∈ folder.dirty) :
    folder.link i = folder.block i := by
  have hlookup : ∀ links : List (ℕ × Link), (∀ p ∈ links, p.2 = Link.shared) →
      i ∈ links.map Prod.fst → links.lookup i = some .shared := by
    intro links hshared hmem
    induction links with
    | nil => cases hmem
    | cons p links ih =>
      rw [List.lookup_cons]
      cases hip : i == p.1 with
      | true => exact congrArg some (hshared p List.mem_cons_self)
      | false =>
        refine ih (fun q hq => hshared q (List.mem_cons_of_mem p hq)) ?_
        rcases List.mem_cons.mp hmem with heq | hmem
        · rw [heq, beq_self_eq_true] at hip
          cases hip
        · exact hmem
  rw [Folder.link, hlookup _ h.2 (Folder.mem_dirty_iff.mp hi)]

/-! ## One write -/

/-- The largest end of the writes. -/
def largest (ends : List ℕ) : ℕ := ends.foldr max 0

/-- The directory after a write. -/
def extended (inode : Inode) (path : String) (blocks : List Bytes) (offset : ℕ) (s : Bytes)
    (folder : Folder) : Folder :=
  Folder.appendAll ⟨fetchedBlock inode.fullpath.text path blocks
      (fetches inode offset s.length) folder.block, folder.write⟩
    (touched inode.blockSize offset s.length) (piece inode.blockSize offset s)

/-- The number of bytes that the file of a block has when a write appends to it. -/
def lengthBefore (inode : Inode) (path : String) (blocks : List Bytes) (folder : Folder)
    (offset size i : ℕ) : ℕ :=
  ((fetchedBlock inode.fullpath.text path blocks (fetches inode offset size)
    folder.block i).getD []).length

/-- The place in the file where the bytes of a write end in its last block. -/
def endBehind (inode : Inode) (path : String) (blocks : List Bytes) (folder : Folder)
    (offset size : ℕ) : ℕ :=
  (offset + size) / inode.blockSize * inode.blockSize +
    lengthBefore inode path blocks folder offset size ((offset + size) / inode.blockSize) +
      localSize inode.blockSize offset (offset + size) (getIndexs inode.blockSize offset size)
        ((offset + size) / inode.blockSize)

/-- A write after which the last dirty block still tells the end of the writes. -/
inductive Tight (inode : Inode) (path : String) (blocks : List Bytes) (folder : Folder)
    (offset size : ℕ) : Prop
  /-- A later block is dirty already. -/
  | earlier (i : ℕ) (hi : i ∈ folder.dirty) (hlt : (offset + size) / inode.blockSize < i)
  /-- The write ends where a block starts that is dirty already. -/
  | boundary (hi : (offset + size) / inode.blockSize ∈ folder.dirty)
    (hmod : (offset + size) % inode.blockSize = 0)
  /-- The bytes of the last block are appended at their place. -/
  | append (hend : endBehind inode path blocks folder offset size = offset + size)
  /-- Nothing gets behind the end that the file had at `open`. -/
  | inside (hlast : offset + size ≤ inode.filesize.toNat)
    (hend : endBehind inode path blocks folder offset size ≤ inode.filesize.toNat)

/-- The dirty blocks after writes with these ends: the last one is the block of the largest
end, and its file ends there, or both are inside of the file at `open`. -/
structure Extent (inode : Inode) (folder : Folder) (ends : List ℕ) : Prop where
  linked : Linked folder
  fresh : ends = [] → folder.dirty = []
  top : ends ≠ [] → largest ends / inode.blockSize ∈ folder.dirty
  below : ∀ i ∈ folder.dirty, i ≤ largest ends / inode.blockSize
  length : ends ≠ [] → ∃ data, folder.block (largest ends / inode.blockSize) = some data ∧
    (largest ends / inode.blockSize * inode.blockSize + data.length = largest ends ∨
      largest ends ≤ inode.filesize.toNat ∧
        largest ends / inode.blockSize * inode.blockSize + data.length ≤ inode.filesize.toNat)

variable {blocks : List Bytes} {offset : ℕ} {s : Bytes} {ends : List ℕ}

theorem block_extended (inode : Inode) (path : String) (blocks : List Bytes) (offset : ℕ)
    (s : Bytes) (folder : Folder) (i : ℕ) :
    (extended inode path blocks offset s folder).block i =
      if i ∈ touched inode.blockSize offset s.length then
        some ((fetchedBlock inode.fullpath.text path blocks (fetches inode offset s.length)
          folder.block i).getD [] ++ piece inode.blockSize offset s i)
      else fetchedBlock inode.fullpath.text path blocks (fetches inode offset s.length)
        folder.block i :=
  Folder.block_appendAll nodup_touched _ _ i

/-- What a write that returns has done. -/
theorem run_writeData_eq_ok {net : Net} {st' : State} (hbs : 0 < inode.getBlockSize)
    (hopen : OpenFile st path inode folder)
    (h : (writeData x net path offset s).run st = .ok () st') :
    ∃ st₁, (prefetch x net inode offset s.length).run st = .ok () st₁ ∧
      st₁ = withBlocks st inode.fullpath.text (answers x net inode)
        (fetches inode offset s.length) ∧
      st' = st₁.setFolder path (extended inode path (answers x net inode) offset s folder) := by
  have hparts := h
  rw [writeData, run_bind_of_ok (run_getInode_of_some hopen.cache)] at hparts
  obtain ⟨_, st₁, hfetch, _⟩ := run_bind_eq_ok.mp hparts
  have hst₁ := state_of_run_prefetch hfetch
  have htmp := tmp_withBlocks hopen.tmp inode.fullpath.text (answers x net inode)
    (fetches inode offset s.length)
  rw [← hst₁] at htmp
  rw [run_writeData_of_prefetch hbs hopen.cache hfetch htmp hopen.write] at h
  cases h
  exact ⟨st₁, hfetch, hst₁, rfl⟩

theorem openFile_extended {st₁ : State} (hopen : OpenFile st path inode folder)
    (hst₁ : st₁ = withBlocks st inode.fullpath.text blocks (fetches inode offset s.length)) :
    OpenFile (st₁.setFolder path (extended inode path blocks offset s folder)) path inode
      (extended inode path blocks offset s folder) := by
  refine ⟨?_, State.tmp_setFolder _ _ _, ?_⟩
  · rw [hst₁]
    exact (congrFun (localInodeCache_withBlocks st _ _ _) path).trans hopen.cache
  · refine Folder.write_appendAll_ne_none ?_ _ _
    exact hopen.write

theorem le_lengthBefore {i : ℕ} {data : Bytes} (h : folder.block i = some data)
    (inode : Inode) (path : String) (blocks : List Bytes) (offset size : ℕ) :
    data.length ≤ lengthBefore inode path blocks folder offset size i := by
  rw [lengthBefore, fetchedBlock]
  split
  · cases data with
    | nil => exact Nat.zero_le _
    | cons byte bytes => rw [currentBlock, h, Option.getD_some]
  · rw [h, Option.getD_some]

theorem mem_dirty_extended {i : ℕ} :
    i ∈ (extended inode path blocks offset s folder).dirty ↔
      i ∈ touched inode.blockSize offset s.length ∨ i ∈ folder.dirty :=
  Folder.mem_dirty_appendAll _ _ _ _

theorem max_div (a b n : ℕ) : max a b / n = max (a / n) (b / n) := by
  rcases le_total a b with h | h
  · rw [max_eq_right h, max_eq_right (Nat.div_le_div_right h)]
  · rw [max_eq_left h, max_eq_left (Nat.div_le_div_right h)]

/-- The file of the last block of a write. -/
theorem exists_lastBlock (hbs : 0 < inode.blockSize) (path : String) (blocks : List Bytes)
    (folder : Folder) (offset : ℕ) (s : Bytes) :
    ∃ data, (extended inode path blocks offset s folder).block
        ((offset + s.length) / inode.blockSize) = some data ∧
      (offset + s.length) / inode.blockSize * inode.blockSize + data.length =
        endBehind inode path blocks folder offset s.length := by
  have hlast := last_mem_touched inode.blockSize offset s.length
  rw [block_extended, if_pos hlast]
  refine ⟨_, rfl, ?_⟩
  rw [List.length_append, length_piece, ← localSize_eq_share hbs hlast, endBehind, lengthBefore,
    Nat.add_assoc]

/-- A write that ends where a block starts leaves the file of that block as it is. -/
theorem block_extended_boundary
    (hmod : (offset + s.length) % inode.blockSize = 0) {data : Bytes}
    (h : folder.block ((offset + s.length) / inode.blockSize) = some data) :
    (extended inode path blocks offset s folder).block ((offset + s.length) / inode.blockSize) =
      some data := by
  have hlast := last_mem_touched inode.blockSize offset s.length
  have hdiv := Nat.div_add_mod' (offset + s.length) inode.blockSize
  have hnot : (offset + s.length) / inode.blockSize ∉ fetches inode offset s.length := by
    intro hmem
    rcases mem_prefetched.mp (mem_fetches.mp hmem).1 with ⟨hfirst, _, hfetch⟩ | ⟨_, _, _, hfetch⟩
    · have hdiv' := Nat.div_add_mod' offset inode.blockSize
      rw [hfirst] at hdiv
      omega
    · exact hfetch hmod
  have hpiece : piece inode.blockSize offset s ((offset + s.length) / inode.blockSize) = [] := by
    refine List.length_eq_zero_iff.mp ?_
    rw [length_piece, share]
    omega
  rw [block_extended, if_pos hlast, fetchedBlock, if_neg fun hmem => hnot hmem.2, h,
    Option.getD_some, hpiece, List.append_nil]

theorem block_extended_of_lt {i : ℕ} (hi : (offset + s.length) / inode.blockSize < i) :
    (extended inode path blocks offset s folder).block i = folder.block i := by
  have hnot : i ∉ touched inode.blockSize offset s.length := fun hmem => by
    have := (mem_touched.mp hmem).2
    omega
  rw [block_extended, if_neg hnot, fetchedBlock,
    if_neg fun hmem => hnot (mem_touched_of_mem_prefetched (mem_fetches.mp hmem.2).1)]

theorem largest_cons (e : ℕ) (ends : List ℕ) : largest (e :: ends) = max e (largest ends) := rfl

theorem ne_nil_of_lt_largest_div {l n : ℕ} (h : l < largest ends / n) : ends ≠ [] := by
  rintro rfl
  rw [show largest [] = 0 from rfl, Nat.zero_div] at h
  exact Nat.not_lt_zero l h

/-- A write that does not end before the last dirty block leaves that block with the earlier
ends in it, unless these are inside of the file at `open`. -/
theorem Extent.largest_le (hs : Extent inode folder ends) (hbs : 0 < inode.blockSize) {size : ℕ}
    (hge : largest ends / inode.blockSize ≤ (offset + size) / inode.blockSize) (path : String)
    (blocks : List Bytes) :
    largest ends ≤ endBehind inode path blocks folder offset size ∨
      largest ends ≤ inode.filesize.toNat := by
  rcases Nat.lt_or_eq_of_le hge with hlt | hsame
  · have hmul := Nat.mul_le_mul_right inode.blockSize
      (show largest ends / inode.blockSize + 1 ≤ (offset + size) / inode.blockSize from hlt)
    have hold := (div_le_iff hbs).mp (le_refl (largest ends / inode.blockSize))
    exact Or.inl (by rw [endBehind]; omega)
  · by_cases hne : ends = []
    · exact Or.inl (hne ▸ Nat.zero_le _)
    · obtain ⟨data, hdata, hlength | ⟨hle, _⟩⟩ := hs.length hne
      · have hbefore := le_lengthBefore hdata inode path blocks offset size
        rw [hsame] at hlength hbefore
        exact Or.inl (by rw [endBehind]; omega)
      · exact Or.inr hle

/-- The length of the last dirty block after a tight write. -/
theorem length_extended (hbs : 0 < inode.blockSize) (hs : Extent inode folder ends)
    (htight : Tight inode path blocks folder offset s.length) :
    ∃ data, (extended inode path blocks offset s folder).block
        (largest ((offset + s.length) :: ends) / inode.blockSize) = some data ∧
      (largest ((offset + s.length) :: ends) / inode.blockSize * inode.blockSize + data.length =
          largest ((offset + s.length) :: ends) ∨
        largest ((offset + s.length) :: ends) ≤ inode.filesize.toNat ∧
          largest ((offset + s.length) :: ends) / inode.blockSize * inode.blockSize + data.length ≤
            inode.filesize.toNat) := by
  rw [largest_cons, max_div]
  rcases Nat.lt_or_ge ((offset + s.length) / inode.blockSize) (largest ends / inode.blockSize) with
    hlt | hge
  · -- The last dirty block stays the last one, and its file stays as it is.
    obtain ⟨data, hdata, hlength⟩ := hs.length (ne_nil_of_lt_largest_div hlt)
    have hle : offset + s.length ≤ largest ends := (Nat.lt_of_div_lt_div hlt).le
    rw [max_eq_right hlt.le, max_eq_right hle]
    exact ⟨data, (block_extended_of_lt hlt).trans hdata, hlength⟩
  rw [max_eq_left hge]
  cases htight with
  | earlier i hi hlt => exact absurd (hs.below i hi) (by omega)
  | boundary hi hmod =>
    have hsame : (offset + s.length) / inode.blockSize = largest ends / inode.blockSize :=
      le_antisymm (hs.below _ hi) hge
    have hne : ends ≠ [] := fun hnil => List.not_mem_nil (hs.fresh hnil ▸ hi)
    have hle : offset + s.length ≤ largest ends := by
      have hold := Nat.div_mul_le_self (largest ends) inode.blockSize
      have hmod' := Nat.div_add_mod' (offset + s.length) inode.blockSize
      rw [hsame] at hmod'
      omega
    obtain ⟨data, hdata, hlength⟩ := hs.length hne
    rw [← hsame] at hdata hlength
    rw [max_eq_right hle]
    exact ⟨data, block_extended_boundary hmod hdata, hlength⟩
  | append hend =>
    obtain ⟨data, hdata, hlength⟩ := exists_lastBlock hbs path blocks folder offset s
    refine ⟨data, hdata, ?_⟩
    rw [hlength, hend]
    rcases hs.largest_le hbs hge path blocks with hle | hle
    · exact Or.inl (max_eq_left (hle.trans hend.le)).symm
    · rcases le_total (largest ends) (offset + s.length) with hle' | hle'
      · exact Or.inl (max_eq_left hle').symm
      · exact Or.inr ⟨max_le (hle'.trans hle) hle, hle'.trans hle⟩
  | inside hlast hend =>
    obtain ⟨data, hdata, hlength⟩ := exists_lastBlock hbs path blocks folder offset s
    refine ⟨data, hdata, Or.inr ?_⟩
    rw [hlength]
    refine ⟨max_le hlast ?_, hend⟩
    rcases hs.largest_le hbs hge path blocks with hle | hle
    · exact hle.trans hend
    · exact hle

theorem extent_extended (hbs : 0 < inode.blockSize) (hs : Extent inode folder ends)
    (htight : Tight inode path blocks folder offset s.length) :
    Extent inode (extended inode path blocks offset s folder) ((offset + s.length) :: ends) where
  linked := by
    refine Linked.appendAll ?_ _ _
    exact hs.linked
  fresh hnil := by cases hnil
  top _ := by
    rw [mem_dirty_extended, largest_cons, max_div]
    rcases le_total (largest ends / inode.blockSize) ((offset + s.length) / inode.blockSize) with
      hle | hle
    · rw [max_eq_left hle]
      exact Or.inl (last_mem_touched _ _ _)
    · rw [max_eq_right hle]
      by_cases hne : ends = []
      · subst hne
        refine Or.inl (mem_touched.mpr ⟨?_, (Nat.zero_div _).le.trans (Nat.zero_le _)⟩)
        exact (Nat.div_le_div_right (Nat.le_add_right _ _)).trans hle
      · exact Or.inr (hs.top hne)
  below i hi := by
    rw [largest_cons, max_div]
    rcases mem_dirty_extended.mp hi with hi | hi
    · exact (mem_touched.mp hi).2.trans (le_max_left _ _)
    · exact (hs.below i hi).trans (le_max_right _ _)
  length _ := length_extended hbs hs htight

/-! ## Runs -/

/-- The end of the last dirty block is the size that `fsync` sends. -/
theorem Extent.fsyncSize_eq (hs : Extent inode folder ends) (hne : ends ≠ []) :
    ∃ last, folder.dirty.getLast? = some last ∧
      fsyncSize inode last ((folder.link last).getD []).length =
        max inode.filesize.toNat (largest ends) := by
  have htop := hs.top hne
  obtain ⟨last, hlast⟩ : ∃ last, folder.dirty.getLast? = some last :=
    ⟨_, List.getLast?_eq_some_getLast (List.ne_nil_of_mem htop)⟩
  obtain rfl : largest ends / inode.blockSize = last :=
    le_antisymm (le_of_mem_dirty hlast htop) (hs.below last (List.mem_of_getLast? hlast))
  obtain ⟨data, hdata, hlength⟩ := hs.length hne
  refine ⟨_, hlast, ?_⟩
  rw [hs.linked.link htop, hdata, Option.getD_some, fsyncSize]
  rcases hlength with hlength | ⟨hends, hlength⟩
  · rw [hlength]
  · rw [max_eq_left hlength, max_eq_left hends]

/-- A file that is open for writing, with the ends of the writes so far. -/
structure Extended where
  st : State
  ends : List ℕ

/-- A call of `write_data`, with what the datanodes answer meanwhile. -/
structure Write where
  net : Net
  offset : ℕ
  s : Bytes

namespace Extended

/-- Right after an `open` for writing. -/
def Start (x : External) (path : String) (w : Extended) : Prop :=
  w.ends = [] ∧ ∃ flags clock st, flags.write = true ∧
    (openFile x path flags clock).run st = .ok () w.st

/-- A write that returns. -/
def step (x : External) (path : String) (w : Extended) (ev : Write) : Option Extended :=
  match (writeData x ev.net path ev.offset ev.s).run w.st with
  | .ok _ st => some ⟨st, (ev.offset + ev.s.length) :: w.ends⟩
  | .error _ _ => none

/-- The write is tight. -/
def Fits (x : External) (path : String) (w : Extended) (ev : Write) : Prop :=
  ∀ inode folder, OpenFile w.st path inode folder →
    Tight inode path (answers x ev.net inode) folder ev.offset ev.s.length

/-- The file is open with this inode, and its dirty blocks tell the end of the writes. -/
def Invariant (path : String) (inode : Inode) (w : Extended) : Prop :=
  ∃ folder, OpenFile w.st path inode folder ∧ Extent inode folder w.ends

theorem invariant_start {w : Extended} (hstart : w.Start x path)
    (hinode : w.st.localInodeCache path = some inode) : w.Invariant path inode := by
  obtain ⟨hends, flags, clock, st, hwrite, hrun⟩ := hstart
  obtain ⟨inode', folder, hopen, hclear⟩ := openFile_of_run hwrite hrun
  obtain rfl := Option.some.inj (hopen.cache.symm.trans hinode)
  have hdirty : folder.dirty = [] := by
    rw [Folder.dirty, hclear]
    rfl
  have hlinked : Linked folder := by
    rw [Linked, hclear]
    exact ⟨List.nodup_nil, fun p hp => by cases hp⟩
  refine ⟨folder, hopen, hlinked, fun _ => hdirty, fun hne => absurd hends hne, fun i hi => ?_,
    fun hne => absurd hends hne⟩
  rw [hdirty] at hi
  cases hi

theorem invariant_step {w w' : Extended} {ev : Write} (hbs : 0 < inode.getBlockSize)
    (hs : w.Invariant path inode) (hfits : w.Fits x path ev)
    (hstep : w.step x path ev = some w') : w'.Invariant path inode := by
  obtain ⟨folder, hopen, hextent⟩ := hs
  rw [step] at hstep
  split at hstep
  · rename_i hrun
    cases hstep
    obtain ⟨st₁, _, hst₁, rfl⟩ := run_writeData_eq_ok hbs hopen hrun
    exact ⟨_, openFile_extended hopen hst₁,
      extent_extended (Inode.blockSize_pos hbs) hextent (hfits inode folder hopen)⟩
  · cases hstep

end Extended

/-- In a run of tight writes, `fsync` sends the larger one of the size at `open` and the
largest end of a write. -/
theorem sends_of_tight {w₀ w : Extended} (hstart : w₀.Start x path)
    (hinode : w₀.st.localInodeCache path = some inode) (hbs : 0 < inode.getBlockSize)
    (h : Runs.Reach (Extended.step x path) (Extended.Fits x path) w₀ w) (hne : w.ends ≠ [])
    {sync : Sync} (hups : AllEncoded x inode (w.st.folder path) (w.st.dirty path) sync.ups) :
    Sends x path sync w.st (max inode.filesize.toNat (largest w.ends)) := by
  obtain ⟨folder, hopen, hextent⟩ : w.Invariant path inode :=
    h.invariant (Extended.invariant_start hstart hinode)
      fun _ _ _ _ hs hfits hstep => Extended.invariant_step hbs hs hfits hstep
  obtain ⟨last, hlast, hsize⟩ := hextent.fsyncSize_eq hne
  rw [State.folder_of_tmp hopen.tmp, State.dirty_of_tmp hopen.tmp] at hups
  rw [← hsize]
  exact sends_of_allEncoded hopen.cache hopen.tmp hlast hextent.linked.nodup hups

/-- The inode of the empty file. -/
def openedInode : Inode := (openedFile.localInodeCache "/f").getD noInode

theorem openedFile_cache : openedFile.localInodeCache "/f" = some openedInode := by
  have hsome : (openedFile.localInodeCache "/f").isSome = true := by decide +kernel
  obtain ⟨inode, hinode⟩ := Option.isSome_iff_exists.mp hsome
  rw [openedInode, hinode, Option.getD_some]

theorem start_openedFile : Extended.Start byteExternal "/f" ⟨openedFile, []⟩ :=
  ⟨rfl, ⟨false, true, false⟩, fun _ => 200, emptyFile, rfl, run_openFile_emptyFile⟩

/-- The file after a byte was written. -/
def oneByte : State := after (writeData byteExternal byteNet "/f" 0 [7]) openedFile

/-- The file after another byte was written behind it. -/
def bothBytes : State := after (writeData byteExternal byteNet "/f" 1 [8]) oneByte

/-- The file after another byte was written to the same place. -/
def twoBytes : State := after (writeData byteExternal byteNet "/f" 0 [8]) oneByte

theorem step_of_returned {st : State} {ends : List ℕ} {offset : ℕ} {s : Bytes}
    (h : returned ((writeData byteExternal byteNet "/f" offset s).run st) = true) :
    Extended.step byteExternal "/f" ⟨st, ends⟩ ⟨byteNet, offset, s⟩ =
      some ⟨after (writeData byteExternal byteNet "/f" offset s) st,
        (offset + s.length) :: ends⟩ := by
  rw [Extended.step, run_of_returned h]

theorem step_oneByte :
    Extended.step byteExternal "/f" ⟨openedFile, []⟩ ⟨byteNet, 0, [7]⟩ = some ⟨oneByte, [1]⟩ :=
  step_of_returned (by decide +kernel)

theorem step_bothBytes :
    Extended.step byteExternal "/f" ⟨oneByte, [1]⟩ ⟨byteNet, 1, [8]⟩ =
      some ⟨bothBytes, [2, 1]⟩ :=
  step_of_returned (by decide +kernel)

theorem step_twoBytes :
    Extended.step byteExternal "/f" ⟨oneByte, [1]⟩ ⟨byteNet, 0, [8]⟩ = some ⟨twoBytes, [1, 1]⟩ :=
  step_of_returned (by decide +kernel)

/-- A byte that is written behind the bytes of the first block comes to its place. -/
theorem fits_of_length {st : State} (hcache : st.localInodeCache "/f" = some openedInode)
    {offset : ℕ} (hlength : ((st.block "/f" 0).getD []).length = offset)
    (hlt : offset + 1 < 1048576) (ends : List ℕ) (b : UInt8) :
    Extended.Fits byteExternal "/f" ⟨st, ends⟩ ⟨byteNet, offset, [b]⟩ := by
  intro inode folder hopen
  obtain rfl := Option.some.inj (hopen.cache.symm.trans hcache)
  have hbs : openedInode.blockSize = 1048576 := by decide +kernel
  have hsub : openedInode.sub = [] := by decide +kernel
  have hfetches : fetches openedInode offset 1 = [] := by
    rw [fetches, hsub]
    exact List.filter_eq_nil_iff.mpr fun i _ => by simp
  rw [State.block_of_tmp hopen.tmp] at hlength
  refine .append ?_
  show endBehind openedInode "/f" _ folder offset 1 = offset + 1
  rw [endBehind, lengthBefore, hbs, hfetches, fetchedBlock,
    if_neg fun hmem => List.not_mem_nil hmem.2, localSize, getIndexs, Nat.div_eq_of_lt hlt,
    Nat.div_eq_of_lt (Nat.lt_of_succ_lt hlt), Nat.mod_eq_of_lt hlt,
    Nat.mod_eq_of_lt (Nat.lt_of_succ_lt hlt), hlength]
  simp only [Nat.zero_add, Nat.sub_self, if_true]
  omega

/-- Both writes are tight: the file gets a length of two bytes. -/
theorem sends_bothBytes : Sends byteExternal "/f" ⟨[byteUploads], true⟩ bothBytes 2 := by
  have hfirst : Extended.Fits byteExternal "/f" ⟨openedFile, []⟩ ⟨byteNet, 0, [7]⟩ :=
    fits_of_length openedFile_cache (by decide +kernel) (by decide) _ _
  have hsecond : Extended.Fits byteExternal "/f" ⟨oneByte, [1]⟩ ⟨byteNet, 1, [8]⟩ :=
    fits_of_length (by decide +kernel) (by decide +kernel) (by decide) _ _
  have hdirty : bothBytes.dirty "/f" = [0] := by decide +kernel
  have hups : AllEncoded byteExternal openedInode (bothBytes.folder "/f") (bothBytes.dirty "/f")
      [byteUploads] := by
    rw [hdirty]
    exact ⟨⟨[7, 8], byteEntry [7, 8], by decide +kernel, by decide +kernel⟩, trivial⟩
  have hsize : openedInode.filesize = 0 := by decide +kernel
  have hsends : Sends byteExternal "/f" ⟨[byteUploads], true⟩ bothBytes
      (max openedInode.filesize.toNat (largest [2, 1])) :=
    sends_of_tight start_openedFile openedFile_cache (by decide +kernel)
      ((Runs.Reach.refl.tail hfirst step_oneByte).tail hsecond step_bothBytes)
      (List.cons_ne_nil _ _) hups
  rw [hsize] at hsends
  exact hsends

/-- The second byte is appended behind the first one, and the file gets a length of two
bytes. -/
theorem not_sends_twoBytes :
    ¬ ∀ (x : External) (path : String) (inode : Inode) (w₀ w : Extended) (sync : Sync),
      w₀.Start x path → w₀.st.localInodeCache path = some inode → 0 < inode.getBlockSize →
      Runs.Reachable (Extended.step x path) w₀ w → w.ends ≠ [] →
      AllEncoded x inode (w.st.folder path) (w.st.dirty path) sync.ups →
      Sends x path sync w.st (max inode.filesize.toNat (largest w.ends)) := by
  intro h
  have hdirty : twoBytes.dirty "/f" = [0] := by decide +kernel
  have hups : AllEncoded byteExternal openedInode (twoBytes.folder "/f") (twoBytes.dirty "/f")
      [byteUploads] := by
    rw [hdirty]
    exact ⟨⟨[7, 8], byteEntry [7, 8], by decide +kernel, by decide +kernel⟩, trivial⟩
  have hreach : Runs.Reachable (Extended.step byteExternal "/f") ⟨openedFile, []⟩
      ⟨twoBytes, [1, 1]⟩ :=
    (Runs.Reach.refl.tail trivial step_oneByte).tail trivial step_twoBytes
  obtain ⟨last, sub, st', hlast, hrun, _⟩ := h byteExternal "/f" openedInode ⟨openedFile, []⟩
    ⟨twoBytes, [1, 1]⟩ ⟨[byteUploads], true⟩ start_openedFile openedFile_cache (by decide +kernel)
    hreach (List.cons_ne_nil _ _) hups
  have hsize : openedInode.filesize = 0 := by decide +kernel
  rw [hdirty] at hlast hrun
  obtain rfl : last = 0 := (Option.some.inj hlast).symm
  have hone : answer (fsyncRequest byteExternal "/f" [0] 0 ⟨[byteUploads], true⟩) twoBytes =
      .ok (1, sub) := by
    rw [hsize] at hrun
    exact answer_of_ok hrun
  have htwo : (answer (fsyncRequest byteExternal "/f" [0] 0 ⟨[byteUploads], true⟩)
      twoBytes).toOption.map Prod.fst = some 2 := by
    decide +kernel
  rw [hone] at htwo
  cases htwo

end Exact

end SDK

end Spkdfs
