import Spkdfs.Client.Session

/-!
# The block files of a path

`close` erases the inode of a path and leaves its block files on the disk.  The next
`open` compares the inode that it fetches with an empty one, and removes nothing.  So a
block file stays what it was, whatever has happened to the record meanwhile.

In a run of `open`, `read_data` and `close` with changes of the records in between, the
block files belong to the inode that the last `update_inode` has fetched (`held`).
`coherent_of_kept` says when they belong to the inode of the next `open` as well.
-/

namespace Spkdfs

open RocksDB Effects

namespace SDK

variable (x : External) (nets : Net → Prop)

/-- What `decode_one` answers for the entry of an index, in one of the states in which
the datanodes can be. -/
def Decoded (inode : Inode) (i : ℕ) (data : Bytes) : Prop :=
  ∃ s net, inode.sub[i]? = some s ∧ nets net ∧ decodeEntry x net inode s = .ok data

/-- Every block file that is not empty holds the decoded content of its entry. -/
def Coherent (st : State) (path : String) (inode : Inode) : Prop :=
  ∀ i data, st.block path i = some data → data ≠ [] → Decoded x nets inode i data

/-- The inodes stay, no block becomes dirty, and a block file that is not empty is an old
one or one of the new ones. -/
structure Frame (new : ℕ → Bytes → Prop) (st st' : State) : Prop where
  cache : st'.localInodeCache = st.localInodeCache
  clean : ∀ p, st.dirty p = [] → st'.dirty p = []
  block : ∀ p i data, st'.block p i = some data → data ≠ [] →
    st.block p i = some data ∨ new i data

instance (new : ℕ → Bytes → Prop) : IsPreorder State (Frame new) where
  refl st := ⟨rfl, fun _ h => h, fun _ _ _ h _ => Or.inl h⟩
  trans st₁ st₂ st₃ h₁ h₂ := by
    refine ⟨h₂.cache.trans h₁.cache, fun p hp => h₂.clean p (h₁.clean p hp), ?_⟩
    intro p i data hdata hne
    rcases h₂.block p i data hdata hne with h | h
    · exact h₁.block p i data h hne
    · exact Or.inr h

variable {x nets} {new : ℕ → Bytes → Prop}

theorem Frame.mono {st st' : State} {new' : ℕ → Bytes → Prop} (h : Frame new st st')
    (himp : ∀ i data, new i data → new' i data) : Frame new' st st' :=
  ⟨h.cache, h.clean, fun p i data hdata hne => (h.block p i data hdata hne).imp_right (himp i data)⟩

theorem Frame.setFolder {st : State} {path : String} {folder : Folder}
    (hclean : st.dirty path = [] → folder.dirty = [])
    (hblock : ∀ i data, folder.block i = some data → data ≠ [] →
      st.block path i = some data ∨ new i data) : Frame new st (st.setFolder path folder) := by
  refine ⟨rfl, fun p hp => ?_, fun p i data hdata hne => ?_⟩
  · by_cases h : p = path
    · subst h
      rw [State.dirty_of_tmp (st.tmp_setFolder p folder)]
      exact hclean hp
    · rw [State.dirty, State.folder, State.tmp_setFolder_of_ne h]
      exact hp
  · by_cases h : p = path
    · subst h
      rw [State.block_setFolder] at hdata
      exact hblock i data hdata hne
    · rw [State.block, State.tmp_setFolder_of_ne h] at hdata
      exact Or.inl hdata

theorem within_send (now : UInt64) (op : Op) : Within (Frame new) (send now op) := by
  intro st
  obtain ⟨db, hdb⟩ := after_send now op st
  rw [hdb]
  exact ⟨rfl, fun _ h => h, fun _ _ _ h _ => Or.inl h⟩

theorem frame_inFolder {path what : String} {f : Folder → Folder}
    (hclean : ∀ folder : Folder, folder.dirty = [] → (f folder).dirty = [])
    (hblock : ∀ folder i data, (f folder).block i = some data → data ≠ [] →
      folder.block i = some data ∨ new i data) : Within (Frame new) (inFolder path what f) := by
  refine within_inFolder (fun st folder h => ?_) what
  refine Frame.setFolder (fun hd => hclean folder ?_) fun i data hdata hne => ?_
  · rwa [State.dirty_of_tmp h] at hd
  · rw [State.block, h]
    exact hblock folder i data hdata hne

theorem block_setBlock {folder : Folder} {i j : ℕ} {block data : Bytes}
    (h : (folder.setBlock i block).block j = some data) :
    folder.block j = some data ∨ (j = i ∧ data = block) := by
  simp only [Folder.setBlock, Function.update_apply] at h
  split at h
  · rename_i hj
    exact Or.inr ⟨hj, (Option.some.inj h).symm⟩
  · exact Or.inl h

/-! ## Reading -/

section Read

variable {net : Net} {inode : Inode}

theorem within_fetchBlock (hnet : nets net) {i : ℕ} {s : String} (hs : inode.sub[i]? = some s) :
    Within (Frame (Decoded x nets inode)) (fetchBlock x net inode i s) := by
  have hempty : Within (Frame (Decoded x nets inode))
      (inFolder inode.fullpath.text "openfile error:" fun folder => folder.setBlock i []) := by
    refine frame_inFolder (fun _ h => h) fun folder j data hdata hne => ?_
    rcases block_setBlock hdata with h | ⟨_, h⟩
    · exact Or.inl h
    · exact absurd h hne
  rw [fetchBlock]
  refine hempty.bind fun _ => ?_
  cases hdec : decodeEntry x net inode s with
  | error e => exact Within.throw e
  | ok block =>
    have hsave : Within (Frame (Decoded x nets inode)) (inFolder inode.fullpath.text
        "openfile error:" fun folder => folder.setBlock i block) := by
      refine frame_inFolder (fun _ h => h) fun folder j data hdata hne => ?_
      rcases block_setBlock hdata with h | ⟨rfl, rfl⟩
      · exact Or.inl h
      · exact Or.inr ⟨s, net, hs, hnet, hdec⟩
    exact hsave.bind fun _ => Within.pure block

end Read

/-! ## Opening -/

section Open

variable {path : String} {st st' : State}

theorem block_foldl_removeBlock (l : List ℕ) (folder : Folder) (i : ℕ) :
    (l.foldl Folder.removeBlock folder).block i = if i ∈ l then none else folder.block i := by
  induction l generalizing folder with
  | nil => rfl
  | cons j l ih =>
    rw [List.foldl_cons, ih]
    by_cases hj : i = j
    · subst hj
      simp [Folder.removeBlock]
    · simp [Folder.removeBlock, hj]

theorem dirty_removeBlock (folder : Folder) (i : ℕ) :
    (folder.removeBlock i).dirty = folder.dirty := by
  have hnames : ((folder.removeBlock i).write.getD []).map Prod.fst =
      (folder.write.getD []).map Prod.fst := by
    cases h : folder.write with
    | none => simp [Folder.removeBlock, h]
    | some links =>
      simp only [Folder.removeBlock, h, Option.map_some, Option.getD_some, List.map_map]
      refine List.map_congr_left fun p _ => ?_
      simp only [Function.comp_apply]
      split
      · split
        · rename_i hi
          exact hi.symm
        · rfl
      · rfl
  rw [Folder.dirty, hnames, Folder.dirty]

theorem dirty_foldl_removeBlock (l : List ℕ) (folder : Folder) :
    (l.foldl Folder.removeBlock folder).dirty = folder.dirty := by
  induction l generalizing folder with
  | nil => rfl
  | cons i l ih => rw [List.foldl_cons, ih, dirty_removeBlock]

/-- `update_inode` leaves the block files whose entries it does not see change. -/
theorem block_removeOutdated {old new : List String} {i : ℕ} {data : Bytes}
    (h : (st.removeOutdated path old new).block path i = some data) :
    st.block path i = some data ∧ outdated old new i = false := by
  unfold State.removeOutdated at h
  split at h
  · rename_i hnone
    rw [State.block, hnone] at h
    cases h
  · rename_i folder hfolder
    rw [State.block_setFolder, block_foldl_removeBlock] at h
    split at h
    · cases h
    · rename_i hkeep
      refine ⟨by rw [State.block, hfolder]; exact h, ?_⟩
      cases hout : outdated old new i with
      | false => rfl
      | true =>
        have hi : i < old.length := by
          rw [outdated, Bool.and_eq_true, decide_eq_true_eq] at hout
          exact hout.1
        exact absurd (List.mem_filter.mpr ⟨List.mem_range.mpr hi, hout⟩) hkeep

theorem frame_removeOutdated (new : ℕ → Bytes → Prop) (st : State) (path : String)
    (old remote : List String) : Frame new st (st.removeOutdated path old remote) := by
  unfold State.removeOutdated
  split
  · exact refl_of (Frame new) st
  · rename_i folder hfolder
    refine Frame.setFolder (fun hd => ?_) fun i data hdata _ => Or.inl ?_
    · rw [dirty_foldl_removeBlock]
      rwa [State.dirty_of_tmp hfolder] at hd
    · rw [block_foldl_removeBlock] at hdata
      split at hdata
      · cases hdata
      · rw [State.block, hfolder]
        exact hdata

theorem within_putFile (file : SourceFile) (path storageType : String) (clock : ℕ → UInt64)
    (ups : List Uploads) : Within (Frame new) (putFile x file path storageType clock ups) :=
  (Within.lift _).bind fun _ => (within_send _ _).bind fun _ => (within_send _ _).bind fun _ =>
    (Within.lift _).bind fun _ => within_send _ _

theorem within_createFile (path : String) (clock : ℕ → UInt64) :
    Within (Frame new) (createFile x path clock) := by
  intro st
  rw [createFile, after_get_bind]
  split
  · exact Within.throw _ st
  · rename_i folder hfolder
    have hset : Frame new st (st.setFolder "" (folder.setBlock 0 [])) := by
      refine Frame.setFolder (fun hd => ?_) fun i data hdata hne => ?_
      · rwa [State.dirty_of_tmp hfolder] at hd
      · rcases block_setBlock hdata with h | ⟨_, h⟩
        · left
          rw [State.block, hfolder]
          exact h
        · exact absurd h hne
    rw [after_modify_bind]
    exact trans_of (Frame new) hset (within_putFile _ _ _ _ _ _)

theorem within_lockFile (path : String) (write : Bool) (now : UInt64) :
    Within (Frame new) (lockFile path write now) := by
  intro st
  have hset : Frame new st (st.setFolder path (st.folder path)) := by
    refine Frame.setFolder (fun hd => hd) fun i data hdata _ => Or.inl ?_
    cases h : st.tmp path with
    | none =>
      rw [State.folder, h] at hdata
      cases hdata
    | some folder =>
      rw [State.folder_of_tmp h] at hdata
      rw [State.block, h]
      exact hdata
  have hlock : Within (Frame new) (if write = true then do
      send now (.updateLock path)
      inFolder path "" Folder.clearWrite
    else pure () : Call Unit) := by
    split
    · refine (within_send _ _).bind fun _ => frame_inFolder (fun _ _ => rfl) ?_
      intro folder i data hdata _
      exact Or.inl hdata
    · exact Within.pure ()
  exact trans_of (Frame new) hset (hlock _)

theorem within_truncateFile (path : String) (size : UInt64) :
    Within (Frame new) (truncateFile path size) := by
  refine (within_getInode path).bind fun inode => ?_
  split
  · exact Within.pure ()
  · refine (Within.lift _).bind fun n => ?_
    split
    · exact (Within.throw _).bind fun _ => within_send _ _
    · exact (Within.pure _).bind fun _ => within_send _ _

/-- The storage type and the list of the inode that an `open` fetches. -/
def fetched (st : State) (path : String) (create : Bool) : Option StorageType × List String :=
  if create then (some (.rs 7 5 16), [])
  else
    let inode := recordAt st.db (.set (if path = "" then "/" else path))
    (inode.storageType, inode.sub)

theorem fetched_of_createFile {clock : ℕ → UInt64} {u : Unit}
    (h : (createFile x path clock).run st = .ok u st') :
    fetched st' path false = (some (.rs 7 5 16), []) := by
  rw [createFile, run_get_bind] at h
  split at h
  · cases h
  · rw [run_modify_bind] at h
    obtain ⟨db, hput, rfl⟩ := (run_putFile_eq_ok x).mp h
    obtain ⟨t, hparse, _, hpath, _, htype, _, hsub⟩ := recordAt_put hput
    obtain rfl : .rs 7 5 16 = t := Except.ok.inj hparse
    have hnil : (recordAt db (.set path)).sub = [] := by
      rw [putBlocks, val_emptySource, Chunks.bufferReads_nil] at hsub
      exact (Except.ok.inj hsub).symm
    simp [fetched, hpath, htype, hnil]

theorem fetched_of_lockFile {write : Bool} {now : UInt64} {u : Unit}
    (h : (lockFile path write now).run st = .ok u st') :
    fetched st' path false = fetched st path false := by
  rw [lockFile, run_modify_bind] at h
  split at h
  · obtain ⟨_, st₁, hsend, h⟩ := run_bind_eq_ok.mp h
    obtain ⟨db, hreq, rfl⟩ := run_send_eq_ok.mp hsend
    have hrec := recordAt_of_updateLock hreq (.set (if path = "" then "/" else path))
    have hfolder : (⟨db, st.localInodeCache,
        (st.setFolder path (st.folder path)).tmp⟩ : State).tmp path = some (st.folder path) :=
      st.tmp_setFolder path _
    cases (run_inFolder hfolder "" Folder.clearWrite).symm.trans h
    show ((recordAt db _).storageType, (recordAt db _).sub) = _
    rw [hrec]
    rfl
  · cases h
    rfl

theorem frame_createStep (path : String) (create : Bool) (clock : ℕ → UInt64) :
    Within (Frame fun _ _ => False)
      (if create then createFile x path clock else pure () : Call Unit) := by
  split
  · exact within_createFile path clock
  · exact Within.pure ()

theorem fetched_of_createStep {create : Bool} {clock : ℕ → UInt64} {u : Unit}
    (h : (if create then createFile x path clock else pure () : Call Unit).run st = .ok u st') :
    fetched st path create = fetched st' path false := by
  cases create with
  | false =>
    cases h
    rfl
  | true => exact (fetched_of_createFile h).symm

/-- What an `open` does: it fails before `update_inode`, it cannot fetch the inode, or it
fetches the inode and removes the block files that it sees change. -/
theorem openFile_cases (x : External) (path : String) (flags : Flags) (clock : ℕ → UInt64)
    (st : State) :
    (∃ e st', (openFile x path flags clock).run st = .error e st' ∧
      Frame (fun _ _ => False) st st') ∨
    (∃ e st₁, (openFile x path flags clock).run st =
        .error e (st₁.setInode path (some ((st.localInodeCache path).getD noInode))) ∧
      Frame (fun _ _ => False) st st₁) ∨
    (∃ st₁ remote, Frame (fun _ _ => False) st st₁ ∧ remote ≠ noInode ∧
      fetched st path flags.create = (remote.storageType, remote.sub) ∧
      Frame (fun _ _ => False)
        ((st₁.removeOutdated path ((st.localInodeCache path).getD noInode).sub
          remote.sub).setInode path (some remote))
        (after (openFile x path flags clock) st)) := by
  rw [openFile_eq]
  have hcreate := frame_createStep (x := x) path flags.create clock st
  have htrunc : Within (Frame fun _ _ => False)
      (if flags.trunc then truncateFile path 0 else pure () : Call Unit) := by
    split
    · exact within_truncateFile path 0
    · exact Within.pure ()
  cases h₁ : (if flags.create then createFile x path clock else pure () : Call Unit).run st with
  | error e st₁ =>
    exact Or.inl ⟨e, st₁, run_bind_of_error h₁ _, after_of_error h₁ ▸ hcreate⟩
  | ok u st₁ =>
    have hframe₁ : Frame (fun _ _ => False) st st₁ := after_of_ok h₁ ▸ hcreate
    have hfetched₁ := fetched_of_createStep h₁
    cases h₂ : (lockFile path flags.write (clock 3)).run st₁ with
    | error e st₂ =>
      refine Or.inl ⟨e, st₂, ?_, trans_of (Frame fun _ _ => False) hframe₁ ?_⟩
      · rw [run_bind_of_ok h₁, run_bind_of_error h₂]
      · exact after_of_error h₂ ▸ within_lockFile path flags.write (clock 3) st₁
    | ok u st₂ =>
      have hframe₂ : Frame (fun _ _ => False) st st₂ :=
        trans_of (Frame fun _ _ => False) hframe₁
          (after_of_ok h₂ ▸ within_lockFile path flags.write (clock 3) st₁)
      have hfetched₂ : fetched st path flags.create = fetched st₂ path false :=
        hfetched₁.trans (fetched_of_lockFile h₂).symm
      have hupdate := run_updateInode path st₂
      rw [show st₂.localInodeCache = st.localInodeCache from hframe₂.cache] at hupdate
      right
      cases hls : Namenode.ls st₂.db path with
      | error e =>
        rw [hls] at hupdate
        refine Or.inl ⟨.thrown e, st₂, ?_, hframe₂⟩
        rw [run_bind_of_ok h₁, run_bind_of_ok h₂, run_bind_of_error hupdate]
      | ok remote =>
        rw [hls] at hupdate
        obtain ⟨hvalid, hremote⟩ := ls_eq_ok.mp hls
        refine Or.inr ⟨st₂, remote, hframe₂, ?_, ?_, ?_⟩
        · rintro rfl
          rw [← hremote] at hvalid
          cases hvalid
        · rw [hfetched₂, hremote]
          rfl
        · rw [after_bind_of_ok h₁, after_bind_of_ok h₂, after_bind_of_ok hupdate]
          exact htrunc _

end Open

/-! ## Runs -/

/-- A run of a client that does not write: its state, the inode that the last
`update_inode` has fetched, and whether the last call was an `open` that has
returned. -/
structure Reader where
  st : State
  held : Inode
  opened : Bool

namespace Reader

/-- No file is open, and nothing is on the disk. -/
def init (db : Store) : Reader := ⟨⟨db, fun _ => none, fun _ => none⟩, noInode, false⟩

/-- The inode that the block files belong to after a call.  An `open` that has fetched
nothing leaves an empty inode. -/
def holds (st : State) (path : String) (held : Inode) : Inode :=
  match st.localInodeCache path with
  | none => held
  | some inode => if inode = noInode then held else inode

/-- One call. -/
def step (x : External) (path : String) (w : Reader) (ev : Event) : Option Reader :=
  (SDK.step x path w.st ev).map fun st =>
    ⟨st, holds st path w.held, match ev with
      | .openFile _ _ => returned ((ev.call x path).run w.st)
      | _ => false⟩

/-- The calls that such a client makes, with the datanodes in one of their states. -/
def Reads (nets : Net → Prop) : Event → Prop
  | .openFile _ _ | .closeFile _ | .other _ => True
  | .readData net _ _ => nets net
  | .writeData _ _ _ | .fsync _ | .putFile _ _ _ _ => False

/-- When an `open` comes, each block file that is not empty and that `update_inode` does
not see change was decoded from the entry and with the storage type that the record
has now. -/
def Kept (path : String) (w : Reader) : Event → Prop
  | .openFile flags _ => ∀ i data, w.st.block path i = some data → data ≠ [] →
    outdated ((w.st.localInodeCache path).getD noInode).sub
        (fetched w.st path flags.create).2 i = true ∨
      (w.held.storageType = (fetched w.st path flags.create).1 ∧
        w.held.sub[i]? = (fetched w.st path flags.create).2[i]?)
  | _ => True

/-- The block files belong to the inode that was fetched last. -/
structure Invariant (x : External) (nets : Net → Prop) (path : String) (w : Reader) : Prop where
  cache : ∀ inode, w.st.localInodeCache path = some inode → inode = noInode ∨ inode = w.held
  clean : w.st.dirty path = []
  coherent : Coherent x nets w.st path w.held
  opened : w.opened = true → w.st.localInodeCache path = some w.held

variable {path : String} {w w' : Reader}

theorem invariant_init (db : Store) : (init db).Invariant x nets path := by
  refine ⟨fun inode h => ?_, rfl, fun i data h => ?_, fun h => ?_⟩
  · cases h
  · cases h
  · cases h

theorem Invariant.holds_eq (hs : w.Invariant x nets path) {st : State}
    (hcache : st.localInodeCache path = w.st.localInodeCache path) :
    holds st path w.held = w.held := by
  rw [holds, hcache]
  cases hinode : w.st.localInodeCache path with
  | none => rfl
  | some inode =>
    rcases hs.cache inode hinode with rfl | rfl
    · exact if_pos rfl
    · exact ite_self _

/-- Steps that do not touch the path. -/
theorem Invariant.samePath (hs : w.Invariant x nets path) {st : State}
    (hcache : st.localInodeCache path = w.st.localInodeCache path)
    (htmp : st.tmp path = w.st.tmp path) :
    (⟨st, holds st path w.held, false⟩ : Reader).Invariant x nets path := by
  rw [hs.holds_eq hcache]
  refine ⟨fun inode h => hs.cache inode (hcache ▸ h), ?_, fun i data hdata => ?_,
    fun h => absurd h (by simp)⟩
  · show st.dirty path = []
    rw [State.dirty, State.folder, htmp]
    exact hs.clean
  · rw [State.block, htmp] at hdata
    exact hs.coherent i data hdata

/-- A call that leaves the inodes alone, and adds nothing to the block files that is not
decoded from the inode. -/
theorem Invariant.frame (hs : w.Invariant x nets path) {st : State}
    (hframe : Frame (fun i data => Decoded x nets w.held i data) w.st st) :
    (⟨st, holds st path w.held, false⟩ : Reader).Invariant x nets path := by
  rw [hs.holds_eq (by rw [hframe.cache])]
  refine ⟨fun inode h => hs.cache inode (hframe.cache ▸ h), hframe.clean path hs.clean, ?_,
    fun h => absurd h (by simp)⟩
  intro i data hdata hne
  rcases hframe.block path i data hdata hne with h | h
  · exact hs.coherent i data h hne
  · exact h

/-- An `open` that fetches nothing leaves the old inode, or an empty one. -/
theorem Invariant.failedOpen (hs : w.Invariant x nets path) {st : State}
    (hframe : Frame (fun i data => Decoded x nets w.held i data) w.st st) :
    (⟨st.setInode path (some ((w.st.localInodeCache path).getD noInode)),
      holds (st.setInode path (some ((w.st.localInodeCache path).getD noInode))) path w.held,
      false⟩ : Reader).Invariant x nets path := by
  have hold : (w.st.localInodeCache path).getD noInode = noInode ∨
      (w.st.localInodeCache path).getD noInode = w.held := by
    cases hcache : w.st.localInodeCache path with
    | none => exact Or.inl rfl
    | some inode => exact hs.cache inode hcache
  have hs' := hs.frame hframe
  have hset : (st.setInode path (some ((w.st.localInodeCache path).getD noInode))).localInodeCache
      path = some ((w.st.localInodeCache path).getD noInode) := Function.update_self ..
  have hheld : holds (st.setInode path (some ((w.st.localInodeCache path).getD noInode))) path
      w.held = w.held := by
    rw [holds, hset]
    rcases hold with h | h
    · rw [h]
      exact if_pos rfl
    · rw [h]
      exact ite_self _
  rw [hheld]
  refine ⟨fun inode h => ?_, hs'.clean, fun i data hdata hne => ?_, fun h => absurd h (by simp)⟩
  · rw [hset] at h
    exact Option.some.inj h ▸ hold
  · rcases hframe.block path i data hdata hne with h | h
    · exact hs.coherent i data h hne
    · exact h

theorem frame_readData (hs : w.Invariant x nets path) {net : Net} (hnet : nets net)
    (offset size : UInt64) :
    Frame (fun i data => Decoded x nets w.held i data) w.st
      (after (readData x net path offset size) w.st) := by
  cases hcache : w.st.localInodeCache path with
  | none =>
    rw [readData, after_of_error (run_bind_of_error (run_getInode_of_none hcache) _)]
    exact refl_of (Frame _) w.st
  | some inode =>
    have hread :
        Frame (Decoded x nets inode) w.st (after (readData x net path offset size) w.st) := by
      rw [readData, after_bind_of_ok (run_getInode_of_some hcache)]
      split
      · exact Within.pure _ w.st
      · refine ((Within.lift _).bind fun indexs => ?_) w.st
        exact (within_readLoop (fun _ _ => within_fetchBlock hnet) _ _ _).bind
          fun s => Within.lift _
    rcases hs.cache inode hcache with rfl | rfl
    · -- An empty inode has no entry that could be decoded.
      refine ⟨hread.cache, hread.clean, fun p i data hdata hne => ?_⟩
      rcases hread.block p i data hdata hne with h | ⟨s, _, hs', _⟩
      · exact Or.inl h
      · cases hs'
    · exact hread

/-- What an `open` finds on the disk belongs to the inode that it has fetched. -/
theorem coherent_openFile (hs : w.Invariant x nets path) {flags : Flags} {clock : ℕ → UInt64}
    (hkept : w.Kept path (.openFile flags clock)) {st₁ st' : State} {remote : Inode}
    (hframe : Frame (fun _ _ => False) w.st st₁)
    (hfetched : fetched w.st path flags.create = (remote.storageType, remote.sub))
    (hafter : Frame (fun _ _ => False)
      ((st₁.removeOutdated path ((w.st.localInodeCache path).getD noInode).sub
        remote.sub).setInode path (some remote)) st') : Coherent x nets st' path remote := by
  intro i data hdata hne
  rcases hafter.block path i data hdata hne with h | h
  · have hpruned : (st₁.removeOutdated path ((w.st.localInodeCache path).getD noInode).sub
        remote.sub).block path i = some data := h
    obtain ⟨hold, hout⟩ := block_removeOutdated hpruned
    rcases hframe.block path i data hold hne with h₀ | h₀
    · rcases hkept i data h₀ hne with hgone | ⟨htype, hentry⟩
      · rw [hfetched, hout] at hgone
        cases hgone
      · rw [hfetched] at htype hentry
        obtain ⟨s, net, hsub, hnet, hdec⟩ := hs.coherent i data h₀ hne
        refine ⟨s, net, hentry ▸ hsub, hnet, ?_⟩
        rw [decodeEntry, show remote.storageType = w.held.storageType from htype.symm]
        exact hdec
    · exact h₀.elim
  · exact h.elim

theorem invariant_openFile (hs : w.Invariant x nets path) {flags : Flags} {clock : ℕ → UInt64}
    (hkept : w.Kept path (.openFile flags clock))
    (h : w.step x path (.openFile flags clock) = some w') : w'.Invariant x nets path := by
  obtain ⟨st', hst, rfl⟩ := Option.map_eq_some_iff.mp h
  have hafter : after (openFile x path flags clock) w.st = st' := settled_eq_some hst
  rcases openFile_cases x path flags clock w.st with ⟨e, st₁, hrun, hframe⟩ |
    ⟨e, st₁, hrun, hframe⟩ | ⟨st₁, remote, hframe, hne, hfetched, hframe'⟩
  · obtain rfl : st₁ = st' := (after_of_error hrun).symm.trans hafter
    have hfailed : returned ((Event.call x path (.openFile flags clock)).run w.st) = false := by
      rw [Event.call, hrun]
      rfl
    simp only [hfailed]
    exact hs.frame (hframe.mono fun _ _ h => h.elim)
  · have hfailed : returned ((Event.call x path (.openFile flags clock)).run w.st) = false := by
      rw [Event.call, hrun]
      rfl
    obtain rfl : st₁.setInode path (some ((w.st.localInodeCache path).getD noInode)) = st' :=
      (after_of_error hrun).symm.trans hafter
    simp only [hfailed]
    exact hs.failedOpen (hframe.mono fun _ _ h => h.elim)
  · obtain rfl : after (openFile x path flags clock) w.st = st' := hafter
    have hcache : (after (openFile x path flags clock) w.st).localInodeCache path =
        some remote := by
      rw [hframe'.cache]
      exact Function.update_self ..
    have hheld : holds (after (openFile x path flags clock) w.st) path w.held = remote := by
      rw [holds, hcache]
      exact if_neg hne
    rw [hheld]
    refine ⟨fun inode h => ?_, hframe'.clean path ?_,
      coherent_openFile hs hkept hframe hfetched hframe', fun _ => hcache⟩
    · rw [hcache] at h
      exact Or.inr (Option.some.inj h).symm
    · exact (frame_removeOutdated (fun _ _ => False) st₁ path _ _).clean path
        (hframe.clean path hs.clean)

/-- What a call of the run keeps. -/
theorem invariant_step {ev : Event} (hs : w.Invariant x nets path) (hreads : Reads nets ev)
    (hkept : w.Kept path ev) (h : w.step x path ev = some w') : w'.Invariant x nets path := by
  cases ev with
  | openFile flags clock => exact invariant_openFile hs hkept h
  | readData net offset size =>
    obtain ⟨st', hst, rfl⟩ := Option.map_eq_some_iff.mp h
    have hafter : after (readData x net path offset size >>= fun _ => pure ()) w.st = st' :=
      settled_eq_some hst
    have hframe := frame_readData hs hreads offset size
    rcases after_bind (readData x net path offset size) (fun _ => pure ()) w.st with
      hsame | ⟨_, st₁, _, hst₁, hsame⟩
    · rw [← hafter, hsame]
      exact hs.frame hframe
    · rw [← hafter, hsame, after_pure, ← hst₁]
      exact hs.frame hframe
  | closeFile sync =>
    obtain ⟨st', hst, rfl⟩ := Option.map_eq_some_iff.mp h
    have hrun : (closeFile x path sync).run w.st = .ok () (w.st.setInode path none) := by
      rw [closeFile, run_bind_of_ok (run_fsync_of_none x (by rw [hs.clean]; rfl) sync)]
      rfl
    obtain rfl : w.st.setInode path none = st' :=
      (after_of_ok hrun).symm.trans (settled_eq_some hst)
    have hnone : (w.st.setInode path none).localInodeCache path = none := Function.update_self ..
    have hheld : holds (w.st.setInode path none) path w.held = w.held := by
      rw [holds, hnone]
    rw [hheld]
    refine ⟨fun inode hinode => ?_, hs.clean, hs.coherent, fun hopen => absurd hopen (by simp)⟩
    rw [hnone] at hinode
    cases hinode
  | other st =>
    obtain ⟨st', hst, rfl⟩ := Option.map_eq_some_iff.mp h
    have hst' := Option.some.inj hst
    have hcache : st'.localInodeCache path = w.st.localInodeCache path := by
      rw [← hst']
      exact Function.update_self ..
    have htmp : st'.tmp path = w.st.tmp path := by
      rw [← hst']
      exact Function.update_self ..
    exact hs.samePath hcache htmp
  | writeData net offset s => exact hreads.elim
  | fsync sync => exact hreads.elim
  | putFile file storageType clock ups => exact hreads.elim

end Reader

/-- In every run of `open`, `read_data` and `close` calls in which no entry of a block
that is on the disk was replaced behind the back of the client, an `open` that returns
leaves block files that belong to the inode it has fetched. -/
theorem coherent_of_kept {path : String} {db : Store} {w : Reader}
    (h : Runs.Reach (Reader.step x path) (fun w ev => Reader.Reads nets ev ∧ w.Kept path ev)
      (.init db) w) (hopened : w.opened = true) :
    ∃ inode, w.st.localInodeCache path = some inode ∧ Coherent x nets w.st path inode := by
  have hinv : w.Invariant x nets path :=
    h.invariant (Reader.invariant_init db) fun _ _ _ _ hs hok hstep =>
      Reader.invariant_step hs hok.1 hok.2 hstep
  exact ⟨w.held, hinv.opened hopened, hinv.coherent⟩

def readsCheck : Event → Bool
  | .openFile _ _ | .closeFile _ | .other _ | .readData _ _ _ => true
  | .writeData _ _ _ | .fsync _ | .putFile _ _ _ _ => false

theorem reads_of_check {ev : Event} (h : readsCheck ev = true) :
    Reader.Reads (fun _ => True) ev := by
  cases ev with
  | openFile flags clock => trivial
  | readData net offset size => trivial
  | closeFile sync => trivial
  | other st => trivial
  | writeData net offset s => cases h
  | fsync sync => cases h
  | putFile file storageType clock ups => cases h

/-- Decides more than `Kept` asks for. -/
def keptCheck (path : String) (w : Reader) : Event → Bool
  | .openFile flags _ =>
    (w.st.tmp path).isNone || (w.held.storageType, w.held.sub) = fetched w.st path flags.create
  | _ => true

theorem kept_of_check {path : String} {w : Reader} {ev : Event}
    (h : keptCheck path w ev = true) : w.Kept path ev := by
  cases ev with
  | openFile flags clock =>
    refine fun i data hdata _ => Or.inr ?_
    rcases Bool.or_eq_true_iff.mp h with hnone | hsame
    · rw [State.block, Option.isNone_iff_eq_none.mp hnone] at hdata
      cases hdata
    · rw [← of_decide_eq_true hsame]
      exact ⟨rfl, rfl⟩
  | _ => trivial

/-- The file is read, closed and opened again. -/
def reopenEvents : List Event :=
  [.openFile ⟨false, false, false⟩ fun _ => 200, .readData byteNet 0 1, .closeFile ⟨[], true⟩,
    .openFile ⟨false, false, false⟩ fun _ => 300]

/-- A file that nobody has changed is read from the disk. -/
theorem coherent_reopenEvents :
    ∃ w, Runs.Reach (Reader.step byteExternal "/f")
        (fun w ev => Reader.Reads (fun _ => True) ev ∧ w.Kept "/f" ev)
        (.init (byteStore [7])) w ∧
      w.st.block "/f" 0 = some [7] ∧
      ∃ inode, w.st.localInodeCache "/f" = some inode ∧
        Coherent byteExternal (fun _ => True) w.st "/f" inode := by
  have hrun : ∃ w, Runs.Reach (Reader.step byteExternal "/f")
      (fun w ev => readsCheck ev = true ∧ keptCheck "/f" w ev = true) (.init (byteStore [7])) w ∧
      decide (w.st.block "/f" 0 = some [7] ∧ w.opened = true) = true :=
    Runs.exists_reach_of_any_guarded reopenEvents (by decide +kernel)
  obtain ⟨w, hcheck, htest⟩ := hrun
  obtain ⟨hblock, hopened⟩ := of_decide_eq_true htest
  have hreach : Runs.Reach (Reader.step byteExternal "/f")
      (fun w ev => Reader.Reads (fun _ => True) ev ∧ w.Kept "/f" ev) (.init (byteStore [7])) w :=
    hcheck.mono fun _ _ hok => ⟨reads_of_check hok.1, kept_of_check hok.2⟩
  exact ⟨w, hreach, hblock, coherent_of_kept hreach hopened⟩

/-- The same, but another client replaces the block while the file is closed. -/
def replaceEvents : List Event :=
  [.openFile ⟨false, false, false⟩ fun _ => 200, .readData byteNet 0 1, .closeFile ⟨[], true⟩,
    .other ⟨byteStore [8], fun _ => none, fun _ => none⟩,
    .openFile ⟨false, false, false⟩ fun _ => 300]

/-- Whatever the datanodes answer, the entry of `[8]` is never decoded to `[7]`. -/
theorem decodeOne_byteEntry_ne (net : Net) :
    decodeOne byteExternal net (.re 1 1) (byteEntry [8]) ≠ .ok [7] := by
  have hplaces : decodeOneSub (byteEntry [8]) =
      [("192.168.88.112:10002", byteExternal.sha256 [8])] := by decide +kernel
  rw [decodeOne, if_neg (by decide), hplaces, decodeLoop]
  cases hget : getFromDatanode byteExternal net "192.168.88.112:10002"
      (byteExternal.sha256 [8]) with
  | error e => simp [decodeLoop]
  | ok data =>
    have hdata : byteExternal.sha256 data = byteExternal.sha256 [8] := by
      unfold getFromDatanode at hget
      split at hget
      · cases hget
      · split at hget
        · cases hget
        · rename_i hsha
          rw [← Except.ok.inj hget]
          exact not_not.mp hsha
    intro h
    have hseven : data = [7] := Except.ok.inj h
    rw [hseven] at hdata
    exact absurd hdata (by decide)

/-- After the second `open` the disk has the old block. -/
theorem not_coherent_replaceEvents :
    ¬ ∀ (x : External) (nets : Net → Prop) (path : String) (db : Store) (w : Reader),
      Runs.Reach (Reader.step x path) (fun _ ev => Reader.Reads nets ev) (.init db) w →
      w.opened = true →
      ∃ inode, w.st.localInodeCache path = some inode ∧ Coherent x nets w.st path inode := by
  intro h
  have hrun : ∃ w, Runs.Reach (Reader.step byteExternal "/f") (fun _ ev => readsCheck ev = true)
      (.init (byteStore [7])) w ∧
      decide (w.opened = true ∧ w.st.block "/f" 0 = some [7] ∧
        (w.st.localInodeCache "/f").map (fun inode => (inode.storageType, inode.sub)) =
          some (some (.re 1 1), [byteEntry [8]])) = true :=
    Runs.exists_reach_of_any_guarded replaceEvents (by decide +kernel)
  obtain ⟨w, hcheck, htest⟩ := hrun
  obtain ⟨hopened, hblock, hinode⟩ := of_decide_eq_true htest
  obtain ⟨inode, hcache, hcoherent⟩ := h byteExternal (fun _ => True) "/f" _ w
    (hcheck.mono fun _ _ hok => reads_of_check hok) hopened
  rw [hcache, Option.map_some, Option.some.injEq, Prod.mk.injEq] at hinode
  obtain ⟨htype, hsub⟩ := hinode
  obtain ⟨s, net, hs, _, hdec⟩ := hcoherent 0 [7] hblock (by simp)
  rw [hsub] at hs
  obtain rfl := Option.some.inj hs
  rw [decodeEntry, htype] at hdec
  exact decodeOne_byteEntry_ne net hdec

end SDK

end Spkdfs
