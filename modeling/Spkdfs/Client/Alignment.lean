import Spkdfs.Client.Fsync

/-!
# Blocks of full length

`get` and `read_data` write the decoded blocks one behind the other, so a byte is at its
place only if every block but the last one has the block size.  `put` uploads buffers of
that size.  `fsync` uploads each block file as long as it is, and fills a gap in the list
with empty entries.

`Aligned` is the property of a list.  `aligned_of_whole` is about all runs of the calls on
one path, and says what an `fsync` and a `put` must find for the list to stay aligned.
-/

namespace Spkdfs

open RocksDB Effects

namespace SDK

variable (x : External)

/-- The entry is decoded to a block of full length, once its places answer. -/
def FullEntry (t : StorageType) (s : String) : Prop :=
  ∃ block : Bytes, (block.length : Int) = t.getBlockSize ∧ IsEntry x t block s ∧
    t.getDecodeBlocks ≤ (decodeOneSub s).length

/-- Every entry but the last one is decoded to a block of full length. -/
def Aligned (inode : Inode) : Prop :=
  ∀ i s, inode.sub[i]? = some s → i + 1 < inode.sub.length →
    ∃ t, inode.storageType = some t ∧ FullEntry x t s

variable {x}

theorem Aligned.congr {inode inode' : Inode} (h : Aligned x inode)
    (htype : inode'.storageType = inode.storageType) (hsub : inode'.sub = inode.sub) :
    Aligned x inode' := by
  intro i s hs hi
  rw [hsub] at hs hi
  rw [htype]
  exact h i s hs hi

theorem aligned_of_length_le {inode : Inode} (h : inode.sub.length ≤ 1) : Aligned x inode := by
  intro i s _ hi
  omega

/-- A shorter list of aligned entries is aligned. -/
theorem Aligned.take {inode inode' : Inode} (h : Aligned x inode)
    (htype : inode'.storageType = inode.storageType) {n : ℕ}
    (hsub : inode'.sub = inode.sub.take n) : Aligned x inode' := by
  intro i s hs hi
  rw [hsub, List.length_take] at hi
  rw [hsub, List.getElem?_take_of_lt (by omega)] at hs
  rw [htype]
  exact h i s hs (by omega)

/-! ## Uploads -/

/-- What a datanode says about the other ones. -/
def Endpoints (ups : List Uploads) : Prop :=
  ∀ up ∈ ups, ∀ nodes, up.online = .ok nodes → ∀ node ∈ nodes, node.IsEndpoint

theorem lookup_filter_ne (links : List (ℕ × Link)) (i j : ℕ) :
    (links.filter (·.1 ≠ j)).lookup i = if i = j then none else links.lookup i := by
  induction links with
  | nil => simp
  | cons p links ih =>
    obtain ⟨a, l⟩ := p
    by_cases ha : a = j
    · rw [List.filter_cons_of_neg (by simpa using ha), ih, List.lookup_cons]
      by_cases hi : i = j
      · rw [if_pos hi, if_pos hi]
      · have hne : (i == a) = false := by
          rw [beq_eq_false_iff_ne, ha]
          exact hi
        rw [if_neg hi, if_neg hi, hne]
    · rw [List.filter_cons_of_pos (by simpa using ha), List.lookup_cons, List.lookup_cons, ih]
      cases hia : i == a with
      | false => rfl
      | true =>
        have hi : i ≠ j := by
          rw [beq_iff_eq.mp hia]
          exact ha
        simp [hi]

theorem link_removeLink (folder : Folder) (i j : ℕ) :
    (folder.removeLink j).link i = if i = j then none else folder.link i := by
  have hlookup : ((folder.removeLink j).write.getD []).lookup i =
      if i = j then none else (folder.write.getD []).lookup i := by
    cases hw : folder.write with
    | none => simp [Folder.removeLink, hw]
    | some links =>
      simp only [Folder.removeLink, hw, Option.map_some, Option.getD_some]
      exact lookup_filter_ne links i j
  rw [Folder.link, hlookup]
  by_cases hij : i = j
  · rw [if_pos hij, if_pos hij]
  · rw [if_neg hij, if_neg hij, Folder.link]
    rfl

/-- What is left in `write` after a name was removed. -/
theorem readLink_of_removeLink {folder : Folder} {i j : ℕ} {block : Bytes}
    (h : (folder.removeLink j).readLink i = .ok block) : folder.readLink i = .ok block := by
  rw [Folder.readLink, link_removeLink] at h
  by_cases hij : i = j
  · rw [if_pos hij] at h
    cases h
  · rw [if_neg hij] at h
    exact h

/-- Each entry that `fsync` uploads comes from the content of its block. -/
theorem exists_block_of_mem_encodeDirty {inode : Inode} {folder : Folder} {res : List ℕ}
    {ups : List Uploads} {p : ℕ × String} (h : p ∈ encodeDirty x inode folder res ups) :
    ∃ block up, (p.1, up) ∈ res.zip ups ∧ folder.readLink p.1 = .ok block ∧
      encodeEntry x inode block up = .ok p.2 := by
  induction res generalizing folder ups with
  | nil => cases h
  | cons i res ih =>
    cases ups with
    | nil => cases h
    | cons up ups =>
      rw [encodeDirty] at h
      split at h
      · cases h
      · rename_i entry hentry
        obtain ⟨block, hblock, hencode⟩ := bind_eq_ok.mp hentry
        rcases List.mem_cons.mp h with rfl | h
        · exact ⟨block, up, List.mem_cons_self, hblock, hencode⟩
        · obtain ⟨block', up', hup', hblock', hencode'⟩ := ih h
          exact ⟨block', up', List.mem_cons_of_mem _ hup', readLink_of_removeLink hblock',
            hencode'⟩

theorem mem_of_setEntries {entries : List (ℕ × String)} {i : ℕ}
    (h : i ∈ entries.map Prod.fst) {sub : List String} {s : String}
    (hs : (setEntries sub entries)[i]? = some s) (hi : i < sub.length) : (i, s) ∈ entries := by
  induction entries generalizing sub with
  | nil => cases h
  | cons p entries ih =>
    by_cases htail : i ∈ entries.map Prod.fst
    · exact List.mem_cons_of_mem _ (ih htail hs (by rwa [List.length_set]))
    · obtain rfl : i = p.1 := (List.mem_cons.mp h).resolve_right htail
      have hset := (setEntries_of_not_mem htail (fun _ => none) (sub.set p.1 p.2)).2
      rw [List.getElem?_set_self hi] at hset
      obtain rfl : p.2 = s := Option.some.inj (hset.symm.trans hs)
      exact List.mem_cons_self

theorem length_setEntries (entries : List (ℕ × String)) (sub : List String) :
    (setEntries sub entries).length = sub.length := by
  induction entries generalizing sub with
  | nil => rfl
  | cons p entries ih =>
    show (setEntries (sub.set p.1 p.2) entries).length = sub.length
    rw [ih, List.length_set]

/-- What an `fsync` must find.  `n` is the length of the list that it is going to record. -/
structure Fits (x : External) (st : State) (path : String) (ups : List Uploads) (inode : Inode)
    (n : ℕ) (t : StorageType) : Prop where
  /-- The cached inode has the storage type of the record. -/
  type : inode.storageType = some t ∧ (recordAt st.db (.set path)).storageType = some t
  /-- A dirty block before the last index has the full length. -/
  full : ∀ i ∈ st.dirty path, i + 1 < n → ∀ block, (st.folder path).readLink i = .ok block →
    (block.length : Int) = t.getBlockSize
  /-- The datanodes take enough of its fragments. -/
  stored : ∀ p ∈ (st.dirty path).zip ups, p.1 + 1 < n → Enough t p.2
  /-- There is no gap behind the old end of the list. -/
  gapless : ∀ i, inode.sub.length ≤ i → i + 1 < n → i ∈ st.dirty path
  /-- If the list grows, its old last block has the full length. -/
  last : inode.sub.length < n → ∀ s, inode.sub[inode.sub.length - 1]? = some s →
    inode.sub.length - 1 ∈ st.dirty path ∨ FullEntry x t s

/-- The list that such an `fsync` records is aligned. -/
theorem aligned_setEntries (hx : x.Lawful) {st : State} {path : String} {ups : List Uploads}
    {inode inode' : Inode} {last : ℕ} {t : StorageType} (hups : Endpoints ups)
    (haligned : Aligned x inode)
    (hfits : Fits x st path ups inode (startList inode last).length t)
    (hcache : st.localInodeCache path = some inode)
    (hlast : (st.dirty path).getLast? = some last)
    (hall : (uploaded x st path ups).map Prod.fst = st.dirty path)
    (htype : inode'.storageType = some t)
    (hsub : inode'.sub = setEntries (startList inode last) (uploaded x st path ups)) :
    Aligned x inode' := by
  intro i s hs hi
  rw [hsub] at hs hi
  rw [length_setEntries] at hi
  refine ⟨t, htype, ?_⟩
  by_cases hdirty : i ∈ st.dirty path
  · have hmem := mem_of_setEntries (hall ▸ hdirty) hs (by omega)
    have hmem' : (i, s) ∈ encodeDirty x inode (st.folder path) (st.dirty path) ups := by
      unfold uploaded at hmem
      rw [hlast, hcache] at hmem
      simp only at hmem
      split at hmem
      · cases hmem
      · exact hmem
    obtain ⟨block, up, hup, hblock, hencode⟩ := exists_block_of_mem_encodeDirty hmem'
    simp only [encodeEntry, hfits.type.1] at hencode
    have hend := hups up (List.of_mem_zip hup).2
    exact ⟨block, hfits.full i hdirty hi block hblock, isEntry_of_encodeOne hx hend hencode,
      length_of_encodeOne hx hend (hfits.stored (i, up) hup hi) hencode⟩
  · rw [(setEntries_of_not_mem (hall ▸ hdirty) (fun _ => none) _).2] at hs
    have hlen : i < inode.sub.length := by
      by_contra hge
      exact hdirty (hfits.gapless i (by omega) hi)
    have hold : inode.sub[i]? = some s := by
      rcases getElem?_startList inode last i with h | ⟨h, _⟩
      · rw [← h, hs]
      · omega
    by_cases hend : i + 1 < inode.sub.length
    · obtain ⟨t', ht', hfull⟩ := haligned i s hold hend
      rw [hfits.type.1, Option.some.injEq] at ht'
      exact ht' ▸ hfull
    · obtain rfl : i = inode.sub.length - 1 := by omega
      exact (hfits.last (by omega) s hold).resolve_left hdirty

/-! ## Uploads of whole files -/

section Put

variable {file : SourceFile} {path storageType : String} {clock : ℕ → UInt64}
  {ups : List Uploads} {st : State}

theorem recordAt_of_put {db db' : Store} {now : UInt64}
    (h : request db now (.put path storageType) = .ok db') :
    ∃ t, StorageType.fromString storageType = .ok t ∧
      (recordAt db' (.set path)).storageType = some t ∧
      (recordAt db' (.set path)).sub = (recordAt db (.set path)).sub := by
  obtain ⟨e, hp, ha⟩ := request_eq_ok.mp h
  have hrec := recordAt_applyEntry_self ha
  rw [(prepare_spec hp).2] at hrec
  obtain ⟨_, _, _, t, ht, rfl⟩ := prepare_put_eq_ok.mp hp
  have hrec' : recordAt db' (.set path) = _ := hrec
  exact ⟨t, ht, by rw [hrec']; rfl, by rw [hrec']; rfl⟩

/-- A `put` that does not come to its end leaves the old list, perhaps under the new
storage type. -/
theorem after_putFile_of_failed
    (h : ∀ db, put x st.db file path storageType (clock 0) (clock 1) (clock 2) ups ≠ .ok db) :
    ∃ db, after (putFile x file path storageType clock ups) st = { st with db := db } ∧
      (recordAt db (.set path)).sub = (recordAt st.db (.set path)).sub ∧
      ((recordAt db (.set path)).storageType = (recordAt st.db (.set path)).storageType ∨
        ∃ t, StorageType.fromString storageType = .ok t ∧
          (recordAt db (.set path)).storageType = some t) := by
  rw [putFile]
  cases ht : StorageType.fromString storageType with
  | error e => exact ⟨st.db, rfl, rfl, Or.inl rfl⟩
  | ok t =>
    have hparse : (lift (rethrow (.ok t)) : Call StorageType).run st = .ok t st := rfl
    rw [after_bind_of_ok hparse]
    cases h₁ : request st.db (clock 0) (.put path storageType) with
    | error e =>
      refine ⟨st.db, ?_, rfl, Or.inl rfl⟩
      rw [after_of_error (run_bind_of_error (run_send_of_error h₁) _)]
    | ok db₁ =>
      obtain ⟨t', ht', htype₁, hsub₁⟩ := recordAt_of_put h₁
      rw [ht, Except.ok.injEq] at ht'
      subst ht'
      rw [after_bind_of_ok (run_send_of_ok h₁)]
      cases h₂ : request db₁ (clock 1) (.updateLock path) with
      | error e =>
        refine ⟨db₁, ?_, hsub₁, Or.inr ⟨t, rfl, htype₁⟩⟩
        rw [after_of_error (run_bind_of_error (run_send_of_error h₂) _)]
      | ok db₂ =>
        have hrec := recordAt_of_updateLock h₂ (.set path)
        have hsub₂ : (recordAt db₂ (.set path)).sub = (recordAt st.db (.set path)).sub := by
          rw [hrec]
          exact hsub₁
        have htype₂ : (recordAt db₂ (.set path)).storageType = some t := by
          rw [hrec]
          exact htype₁
        rw [after_bind_of_ok (run_send_of_ok h₂)]
        refine ⟨db₂, ?_, hsub₂, Or.inr ⟨t, rfl, htype₂⟩⟩
        cases hsub : encodeFile x t file.val ups with
        | error e => rfl
        | ok sub =>
          rw [after_bind_of_ok (run_lift_eq_ok.mpr ⟨rfl, rfl⟩)]
          cases h₃ : request db₂ (clock 2) (.putOk path (.ofNat file.val.length) sub) with
          | error e => rw [after_of_error (run_send_of_error h₃)]
          | ok db₃ =>
            exfalso
            refine h db₃ (bind_eq_ok.mpr ⟨t, rethrow_eq_ok.mpr ht, bind_eq_ok.mpr ⟨db₁, h₁,
              bind_eq_ok.mpr ⟨db₂, h₂, bind_eq_ok.mpr ⟨sub, hsub, h₃⟩⟩⟩⟩)

/-- The entries of a file in terms of its blocks. -/
theorem exists_of_encodeBlocks {t : StorageType} {blocks : List Bytes} {ups : List Uploads}
    {sub : List String} (h : encodeBlocks x t blocks ups = .ok sub) {i : ℕ} {s : String}
    (hs : sub[i]? = some s) :
    ∃ block up, blocks[i]? = some block ∧ ups[i]? = some up ∧ encodeOne x t block up = .ok s := by
  induction blocks generalizing ups sub i with
  | nil =>
    rw [encodeBlocks] at h
    rw [← Except.ok.inj h] at hs
    cases hs
  | cons block blocks ih =>
    cases ups with
    | nil => cases h
    | cons up ups =>
      rw [encodeBlocks] at h
      obtain ⟨res, hres, h⟩ := bind_eq_ok.mp h
      obtain ⟨rest, hrest, h⟩ := bind_eq_ok.mp h
      rw [← Except.ok.inj h] at hs
      cases i with
      | zero => exact ⟨block, up, rfl, rfl, Option.some.inj hs ▸ hres⟩
      | succ i => exact ih hrest hs

/-- The datanodes take enough fragments of each block but the last one. -/
def Spread (t : StorageType) (file : Bytes) (ups : List Uploads) : Prop :=
  ∀ i up, ups[i]? = some up → i + 1 < (putBlocks t file).length → Enough t up

/-- What a `put` must find: it comes to its end, or it does not give a new storage type to
the blocks of an old list. -/
structure PutFits (x : External) (st : State) (file : SourceFile) (path storageType : String)
    (clock : ℕ → UInt64) (ups : List Uploads) : Prop where
  stored : ∀ db t, put x st.db file path storageType (clock 0) (clock 1) (clock 2) ups = .ok db →
    StorageType.fromString storageType = .ok t → Spread t file.val ups
  type : (∃ db, put x st.db file path storageType (clock 0) (clock 1) (clock 2) ups = .ok db) ∨
    (recordAt st.db (.set path)).sub.length ≤ 1 ∨
    ∀ t, StorageType.fromString storageType = .ok t →
      (recordAt st.db (.set path)).storageType = some t

theorem aligned_put (hx : x.Lawful) (hups : Endpoints ups) {db db' : Store}
    (hspread : ∀ t, StorageType.fromString storageType = .ok t → Spread t file.val ups)
    (h : put x db file path storageType (clock 0) (clock 1) (clock 2) ups = .ok db') :
    Aligned x (recordAt db' (.set path)) := by
  obtain ⟨t, hparse, hpos, _, _, htype, _, hsub⟩ := recordAt_put h
  intro i s hs hi
  obtain ⟨block, up, hblock, hup, hencode⟩ := exists_of_encodeBlocks hsub hs
  have hentries := forall₂_isEntry_of_encodeBlocks hx hups hsub
  have hlen : block.length = t.getBlockSize.toNat :=
    Chunks.length_of_mem_bufferReads List.length_replicate (List.mem_of_getElem? hblock)
  have hend := hups up (List.mem_of_getElem? hup)
  exact ⟨t, htype, block, by omega, isEntry_of_encodeOne hx hend hencode,
    length_of_encodeOne hx hend
      (hspread t hparse i up hup (by rw [hentries.length_eq]; exact hi)) hencode⟩

end Put

/-! ## Calls -/

/-- The record of the path is aligned, and so is the cached inode.  The empty path fetches
the root, and nothing is ever recorded for it. -/
structure AlignedState (x : External) (path : String) (st : State) : Prop where
  record : Aligned x (recordAt st.db (.set path))
  cache : path ≠ "" → ∀ inode, st.localInodeCache path = some inode → Aligned x inode

section Calls

variable {path : String} {st st' : State}

theorem AlignedState.sameRecords (hs : AlignedState x path st) (h : SameRecords st st') :
    AlignedState x path st' := by
  refine ⟨?_, fun hpath inode hinode => hs.cache hpath inode ?_⟩
  · rw [h.1]
    exact hs.record
  · rw [← h.2]
    exact hinode

theorem aligned_putFile (hx : x.Lawful) {file : SourceFile} {storageType : String}
    {clock : ℕ → UInt64} {ups : List Uploads} (hs : AlignedState x path st)
    (hups : Endpoints ups) (hfits : PutFits x st file path storageType clock ups) :
    AlignedState x path (after (putFile x file path storageType clock ups) st) := by
  by_cases hput : ∃ db, put x st.db file path storageType (clock 0) (clock 1) (clock 2) ups = .ok db
  · obtain ⟨db, hput⟩ := hput
    rw [after_of_ok ((run_putFile_eq_ok x).mpr ⟨db, hput, rfl⟩)]
    exact ⟨aligned_put hx hups (fun t => hfits.stored db t hput) hput, hs.cache⟩
  · obtain ⟨db, hafter, hsub, htype⟩ := after_putFile_of_failed (not_exists.mp hput)
    rw [hafter]
    refine ⟨?_, hs.cache⟩
    rcases htype with htype | ⟨t, hparse, htype⟩
    · exact hs.record.congr htype hsub
    · rcases hfits.type with hdone | hshort | hsame
      · exact absurd hdone hput
      · exact aligned_of_length_le (by rw [hsub]; exact hshort)
      · exact hs.record.congr (htype.trans (hsame t hparse).symm) hsub

theorem aligned_noInode : Aligned x noInode := aligned_of_length_le (Nat.zero_le 1)

/-- A call that changes neither records nor inodes. -/
theorem keeps_of_sameRecords {α : Type} {m : Call α} (h : Within SameRecords m) :
    Within (Keeps (AlignedState x path)) m :=
  fun st hs => hs.sameRecords (h st)

theorem aligned_lockFile (write : Bool) (now : UInt64) :
    Within (Keeps (AlignedState x path)) (lockFile path write now) := by
  have hsend : Within (Keeps (AlignedState x path)) (send now (.updateLock path)) := by
    intro st hs
    cases h : request st.db now (.updateLock path) with
    | error e =>
      rw [after_of_error (run_send_of_error h)]
      exact hs
    | ok db =>
      have hrec := recordAt_of_updateLock h (.set path)
      rw [after_of_ok (run_send_of_ok h)]
      exact ⟨hs.record.congr (by rw [hrec]) (by rw [hrec]), hs.cache⟩
  have hlock : Within (Keeps (AlignedState x path)) (if write = true then do
      send now (.updateLock path)
      inFolder path "" Folder.clearWrite
    else pure () : Call Unit) := by
    split
    · exact hsend.bind fun _ => keeps_of_sameRecords (sameRecords_inFolder _ _ _)
    · exact Within.pure ()
  intro st hs
  rw [lockFile, after_modify_bind]
  have hset : SameRecords st (st.setFolder path (st.folder path)) := ⟨rfl, rfl⟩
  exact hlock _ (hs.sameRecords hset)

/-- `_truncate` of a file whose inode was just fetched. -/
theorem aligned_truncateFile (hs : AlignedState x path st) (size : UInt64)
    (hcache : path ≠ "" → st.localInodeCache path = some (recordAt st.db (.set path))) :
    AlignedState x path (after (truncateFile path size) st) := by
  rw [truncateFile]
  cases hinode : st.localInodeCache path with
  | none =>
    rw [after_of_error (run_bind_of_error (run_getInode_of_none hinode) _)]
    exact hs
  | some inode =>
    rw [after_bind_of_ok (run_getInode_of_some hinode)]
    split
    · exact hs
    · cases halign : alignUp (toInt32 size.toNat) inode.getBlockSize with
      | error e => exact hs
      | ok n =>
        rw [after_bind_of_ok (run_lift_eq_ok.mpr ⟨rfl, rfl⟩)]
        split
        · exact hs
        · cases hreq : request st.db 0 (.putOk path size (inode.sub.take n.toNat)) with
          | error e =>
            rw [after_of_error (run_send_of_error hreq)]
            exact hs
          | ok db =>
            obtain ⟨⟨hpath, _⟩, hrec⟩ := request_putOk_eq_ok hreq
            rw [after_of_ok (run_send_of_ok hreq)]
            have hsame : recordAt st.db (.set path) = inode :=
              Option.some.inj ((hcache hpath).symm.trans hinode)
            refine ⟨hs.record.take (n := n.toNat) ?_ ?_, hs.cache⟩
            · rw [hrec]
              rfl
            · rw [hrec, hsame]

/-- The last part of `open`. -/
theorem aligned_fetch (trunc : Bool) :
    Within (Keeps (AlignedState x path)) (updateInode path >>= fun _ =>
      if trunc then truncateFile path 0 else pure ()) := by
  intro st hs
  have hupdate := run_updateInode path st
  have hold : path ≠ "" → Aligned x ((st.localInodeCache path).getD noInode) := by
    intro hpath
    cases hinode : st.localInodeCache path with
    | none => exact aligned_noInode
    | some inode => exact hs.cache hpath inode hinode
  generalize (st.localInodeCache path).getD noInode = old at hupdate hold
  cases hls : Namenode.ls st.db path with
  | error e =>
    rw [hls] at hupdate
    rw [after_of_error (run_bind_of_error hupdate _)]
    refine ⟨hs.record, fun hpath inode hinode => ?_⟩
    rw [State.localInodeCache_setInode, Option.some.injEq] at hinode
    exact hinode ▸ hold hpath
  | ok remote =>
    rw [hls] at hupdate
    rw [after_bind_of_ok hupdate]
    obtain ⟨hdb, _⟩ := st.removeOutdated_records path old.sub remote.sub
    have hremote : path ≠ "" → remote = recordAt st.db (.set path) := by
      intro hpath
      rw [Namenode.ls, if_neg hpath] at hls
      exact (ls_eq_ok.mp hls).2
    have hcache : ((st.removeOutdated path old.sub remote.sub).setInode path
        (some remote)).localInodeCache path = some remote := State.localInodeCache_setInode _ _ _
    have hs' : AlignedState x path
        ((st.removeOutdated path old.sub remote.sub).setInode path (some remote)) := by
      refine ⟨?_, fun hpath inode hinode => ?_⟩
      · show Aligned x (recordAt (st.removeOutdated path old.sub remote.sub).db (.set path))
        rw [hdb]
        exact hs.record
      · obtain rfl : remote = inode := Option.some.inj (hcache.symm.trans hinode)
        rw [hremote hpath]
        exact hs.record
    split
    · refine aligned_truncateFile hs' 0 fun hpath => ?_
      show _ = some (recordAt (st.removeOutdated path old.sub remote.sub).db (.set path))
      rw [hcache, hdb, hremote hpath]
    · exact hs'

theorem aligned_openFile (hx : x.Lawful) {flags : Flags} {clock : ℕ → UInt64}
    (hs : AlignedState x path st)
    (hfits : flags.create = true →
      PutFits x st emptySource path guessStorageType clock []) :
    AlignedState x path (after (openFile x path flags clock) st) := by
  have hrest : Within (Keeps (AlignedState x path)) (lockFile path flags.write (clock 3) >>=
      fun _ => updateInode path >>= fun _ =>
        if flags.trunc then truncateFile path 0 else pure ()) :=
    (aligned_lockFile _ _).bind fun _ => aligned_fetch flags.trunc
  have hcreate : AlignedState x path
      (after (if flags.create then createFile x path clock else pure () : Call Unit) st) := by
    split
    · rename_i hflag
      rw [createFile, after_get_bind]
      split
      · exact hs
      · rename_i folder _
        rw [after_modify_bind]
        have hset : SameRecords st (st.setFolder "" (folder.setBlock 0 [])) := ⟨rfl, rfl⟩
        have hfits' := hfits hflag
        exact aligned_putFile hx (hs.sameRecords hset) (fun up hup => by cases hup)
          ⟨hfits'.stored, hfits'.type⟩
    · exact hs
  rw [openFile_eq]
  rcases after_bind (if flags.create then createFile x path clock else pure () : Call Unit)
    (fun _ => lockFile path flags.write (clock 3) >>= fun _ => updateInode path >>= fun _ =>
      if flags.trunc then truncateFile path 0 else pure ()) st with h | ⟨_, st₁, _, hst₁, h⟩
  · rw [h]
    exact hcreate
  · rw [h]
    exact hrest st₁ (hst₁ ▸ hcreate)

/-- What an `fsync` must find, if the namenode is going to record it. -/
def FsyncFits (x : External) (path : String) (st : State) (sync : Sync) : Prop :=
  ∀ inode last, st.localInodeCache path = some inode → (st.dirty path).getLast? = some last →
    (uploaded x st path sync.ups).map Prod.fst = st.dirty path → sync.delivered = true →
    Accepts st.db path → ∃ t, Fits x st path sync.ups inode (startList inode last).length t

theorem aligned_fsync (hx : x.Lawful) {sync : Sync} (hs : AlignedState x path st)
    (hups : Endpoints sync.ups) (hfits : FsyncFits x path st sync) :
    AlignedState x path (after (fsync x path sync) st) := by
  rcases fsync_cases x path sync st with ⟨hsame, _⟩ |
    ⟨last, inode, size, st₁, hlast, hcache, hsame, hall, hrun⟩
  · exact hs.sameRecords hsame
  · obtain ⟨db, hsend, hdb⟩ := run_sendUnchecked sync.delivered path size
      (setEntries (startList inode last) (uploaded x st path sync.ups)) st₁
    rw [after_of_ok (hrun.trans hsend)]
    have hs₁ : AlignedState x path st₁ := hs.sameRecords hsame
    rcases hdb with ⟨hdelivered, haccepts, hrec⟩ | ⟨_, rfl⟩
    · rw [hsame.1] at haccepts hrec
      obtain ⟨t, hfits⟩ := hfits inode last hcache hlast hall hdelivered haccepts
      refine ⟨aligned_setEntries hx hups (hs.cache haccepts.1 inode hcache) hfits hcache hlast hall
        ?_ ?_, hs₁.cache⟩
      · rw [hrec]
        exact hfits.type.2
      · rw [hrec]
    · exact hs₁

theorem aligned_closeFile (hx : x.Lawful) {sync : Sync} (hs : AlignedState x path st)
    (hups : Endpoints sync.ups) (hfits : FsyncFits x path st sync) :
    AlignedState x path (after (closeFile x path sync) st) := by
  have hsync := aligned_fsync hx hs hups hfits
  rw [closeFile]
  rcases after_bind (fsync x path sync) (fun _ => modify fun st => st.setInode path none) st with
    h | ⟨_, st₁, _, hst₁, h⟩
  · rw [h]
    exact hsync
  · rw [h]
    rw [hst₁] at hsync
    refine ⟨hsync.record, fun _ inode hinode => ?_⟩
    have hnone : (st₁.setInode path none).localInodeCache path = some inode := hinode
    rw [State.localInodeCache_setInode] at hnone
    cases hnone

end Calls

/-! ## Runs -/

/-- There is no file yet, and none is open. -/
def NoFile (path : String) (st : State) : Prop :=
  st.localInodeCache path = none ∧ recordAt st.db (.set path) = .new (.set path)

/-- The addresses of the datanodes are endpoints, and nobody else writes the file. -/
def Alone (path : String) (st : State) : Event → Prop
  | .putFile _ _ _ ups => Endpoints ups
  | .fsync sync | .closeFile sync => Endpoints sync.ups
  | .other st' => recordAt st'.db (.set path) =
    { recordAt st.db (.set path) with ddlLock := (recordAt st'.db (.set path)).ddlLock }
  | .openFile _ _ | .readData _ _ _ | .writeData _ _ _ => True

/-- What a call must find. -/
def Whole (x : External) (path : String) (st : State) : Event → Prop
  | .putFile file storageType clock ups => PutFits x st file path storageType clock ups
  | .openFile flags clock => flags.create = true →
    PutFits x st emptySource path guessStorageType clock []
  | .fsync sync | .closeFile sync => FsyncFits x path st sync
  | .readData _ _ _ | .writeData _ _ _ | .other _ => True

theorem aligned_step (hx : x.Lawful) {path : String} {st st' : State} {ev : Event}
    (hs : AlignedState x path st) (halone : Alone path st ev) (hwhole : Whole x path st ev)
    (h : step x path st ev = some st') : AlignedState x path st' := by
  rw [← settled_eq_some h]
  cases ev with
  | openFile flags clock => exact aligned_openFile hx hs hwhole
  | putFile file storageType clock ups => exact aligned_putFile hx hs halone hwhole
  | fsync sync => exact aligned_fsync hx hs halone hwhole
  | closeFile sync => exact aligned_closeFile hx hs halone hwhole
  | readData net offset size =>
    exact hs.sameRecords (((within_readData net path offset size).bind fun _ => Within.pure ()) st)
  | writeData net offset s => exact hs.sameRecords (within_writeData net path offset s st)
  | other st₁ =>
    refine ⟨?_, fun hpath inode hinode => hs.cache hpath inode ?_⟩
    · show Aligned x (recordAt st₁.db (.set path))
      rw [show recordAt st₁.db (.set path) = _ from halone]
      exact hs.record.congr rfl rfl
    · have hsame : Function.update st₁.localInodeCache path (st.localInodeCache path) path =
          st.localInodeCache path := Function.update_self ..
      exact hsame.symm.trans hinode

/-- `decode_one` of each entry. -/
theorem forall₂_of_decodeBlocks {net : Net} {t : StorageType} {sub : List String}
    {blocks : List Bytes} (h : decodeBlocks x net t sub = .ok blocks) :
    List.Forall₂ (fun s block => decodeOne x net t s = .ok block) sub blocks := by
  induction sub generalizing blocks with
  | nil =>
    rw [decodeBlocks] at h
    rw [← Except.ok.inj h]
    exact .nil
  | cons s sub ih =>
    rw [decodeBlocks] at h
    obtain ⟨block, hblock, h⟩ := bind_eq_ok.mp h
    obtain ⟨rest, hrest, h⟩ := bind_eq_ok.mp h
    rw [← Except.ok.inj h]
    exact .cons hblock (ih hrest)

/-- In an aligned list each byte of the file is where its offset says, when enough places
answer. -/
theorem Aligned.getElem?_flatten (hx : x.Lawful) {inode : Inode} (h : Aligned x inode)
    {net : Net} {t : StorageType} {blocks : List Bytes} (htype : inode.storageType = some t)
    (hpos : 0 < t.getBlockSize) (hdec : decodeBlocks x net t inode.sub = .ok blocks)
    (havail : ∀ s ∈ inode.sub, t.getDecodeBlocks ≤ available x net s)
    (hcol : ∀ s ∈ inode.sub, ∀ block, IsEntry x t block s → NoCollision x net t block) {o : ℕ}
    (ho : o / t.getBlockSize.toNat < inode.sub.length) :
    blocks.flatten[o]? =
      blocks[o / t.getBlockSize.toNat]?.bind fun block => block[o % t.getBlockSize.toNat]? := by
  have hall := forall₂_of_decodeBlocks hdec
  have hlen : ∀ i b, blocks[i]? = some b → i + 1 < blocks.length →
      b.length = t.getBlockSize.toNat := by
    intro i b hb hi
    have hi' : i < inode.sub.length := by
      rw [hall.length_eq]
      omega
    have hs : inode.sub[i]? = some inode.sub[i] := List.getElem?_eq_getElem hi'
    obtain ⟨t', ht', block, hblock, hentry, _⟩ := h i _ hs (by rw [hall.length_eq]; exact hi)
    rw [htype, Option.some.injEq] at ht'
    subst ht'
    have hmem := List.mem_of_getElem? hs
    have hone := hall.get hi' (by omega)
    rw [List.get_eq_getElem, decodeOne_of_isEntry hx hentry (hcol _ hmem block hentry),
      if_pos (havail _ hmem), Except.ok.injEq, List.get_eq_getElem,
      ← Option.some.injEq, ← List.getElem?_eq_getElem, hb, Option.some.injEq] at hone
    rw [← hone]
    omega
  have hsize : 0 < t.getBlockSize.toNat := by omega
  have hflat := Chunks.getElem?_flatten hlen (Nat.mod_lt o hsize)
    (hall.length_eq ▸ ho : o / t.getBlockSize.toNat < blocks.length)
  rw [Nat.div_add_mod'] at hflat
  exact hflat

/-- In every run of the calls on a path in which each `put` and each `fsync` finds what it
needs, the list of the file stays aligned. -/
theorem aligned_of_whole (hx : x.Lawful) {path : String} {st₀ st : State}
    (hstart : NoFile path st₀)
    (h : Runs.Reach (step x path) (fun st ev => Alone path st ev ∧ Whole x path st ev) st₀ st) :
    Aligned x (recordAt st.db (.set path)) ∧
      ∀ net t blocks o, (recordAt st.db (.set path)).storageType = some t → 0 < t.getBlockSize →
        decodeBlocks x net t (recordAt st.db (.set path)).sub = .ok blocks →
        (∀ s ∈ (recordAt st.db (.set path)).sub, t.getDecodeBlocks ≤ available x net s) →
        (∀ s ∈ (recordAt st.db (.set path)).sub, ∀ block, IsEntry x t block s →
          NoCollision x net t block) →
        o / t.getBlockSize.toNat < (recordAt st.db (.set path)).sub.length →
        blocks.flatten[o]? =
          blocks[o / t.getBlockSize.toNat]?.bind fun block => block[o % t.getBlockSize.toNat]? := by
  have hinit : AlignedState x path st₀ := by
    refine ⟨?_, fun _ inode hinode => ?_⟩
    · rw [hstart.2]
      exact aligned_of_length_le (Nat.zero_le 1)
    · rw [hstart.1] at hinode
      cases hinode
  have hinv : AlignedState x path st :=
    h.invariant hinit fun _ _ _ _ hs hok hstep => aligned_step hx hs hok.1 hok.2 hstep
  exact ⟨hinv.record, fun net t blocks o htype hpos hdec havail hcol ho =>
    hinv.record.getElem?_flatten hx htype hpos hdec havail hcol ho⟩

/-! ## A file that grows, and a gap -/

/-- Nothing is stored yet. -/
def noFile : State := ⟨KeyedMap.empty, fun _ => none, fun _ => none⟩

/-- The functions as they behave on the blocks of this file. -/
def grownExternal : External where
  sha256 := fun data => if data = [7] then byteExternal.sha256 [7] else smallDigest
  code := byteExternal.code

/-- The entry of the block of `smallBlock` with one replica. -/
def firstEntry : String := "192.168.88.112:10002|" ++ smallDigest

/-- The requests of its first `put`, with three bytes. -/
def firstRequests : Except Abrupt Store := do
  let db ← request KeyedMap.empty 100 (.put "/f" "RE<1,1>")
  let db ← request db 100 (.updateLock "/f")
  request db 100 (.putOk "/f" 3 [firstEntry])

/-- The state after it. -/
def putState : State :=
  { noFile with
    db := match firstRequests with
      | .ok db => db
      | .error _ => KeyedMap.empty }

/-- It is open for writing. -/
def reopened : State :=
  after (openFile grownExternal "/f" ⟨false, true, false⟩ fun _ => 200) putState

/-- One byte is written behind its block. -/
def grownState : State := after (writeData grownExternal byteNet "/f" 1048576 [7]) reopened

theorem byteExternal_lawful : byteExternal.Lawful := by
  refine ⟨fun data => ?_, smallExternal_lawful.code⟩
  simp only [byteExternal]
  split
  · exact Delimited.forall_not_mem_of_all (by decide)
  · split
    · exact Delimited.forall_not_mem_of_all (by decide)
    · split <;> exact Delimited.forall_not_mem_of_all (by decide)

theorem grownExternal_lawful : grownExternal.Lawful := by
  refine ⟨fun data => ?_, smallExternal_lawful.code⟩
  simp only [grownExternal]
  split
  · exact byteExternal_lawful.digest [7]
  · exact smallExternal_lawful.digest []

theorem encodeOne_smallBlock :
    encodeOne grownExternal (.re 1 1) smallBlock byteUploads = .ok firstEntry := by
  decide

theorem endpoints_byteUploads : Endpoints [byteUploads] := by
  intro up hup nodes hnodes node hnode
  obtain rfl := List.mem_singleton.mp hup
  obtain rfl := Except.ok.inj hnodes
  obtain rfl := List.mem_singleton.mp hnode
  exact isEndpoint_small (Or.inl rfl)

theorem put_firstEntry :
    put grownExternal KeyedMap.empty ⟨[1, 2, 3], by decide⟩ "/f" "RE<1,1>" 100 100 100
      [byteUploads] = .ok putState.db := by
  have hfile : encodeFile grownExternal (.re 1 1) [1, 2, 3] [byteUploads] = .ok [firstEntry] := by
    rw [encodeFile, if_neg (by decide), if_neg (by decide),
      putBlocks_small (t := .re 1 1) (by decide), encodeBlocks, encodeOne_smallBlock]
    rfl
  have hok : okWith (fun _ => true) firstRequests = true := by decide
  obtain ⟨db, hreq, _⟩ := okWith_eq_true.mp hok
  refine (put_of_encodeFile rfl hfile).trans (?_ : firstRequests = .ok putState.db)
  simp only [putState, hreq]

theorem fullEntry_firstEntry : FullEntry grownExternal (.re 1 1) firstEntry := by
  refine ⟨smallBlock, ?_, isEntry_of_encodeOne grownExternal_lawful
    (endpoints_byteUploads _ List.mem_cons_self) encodeOne_smallBlock, by decide⟩
  have hlen : smallBlock.length = 1048576 := by
    rw [smallBlock, Chunks.length_overwrite (by rw [List.length_replicate]; decide),
      List.length_replicate]
  rw [hlen]
  decide

theorem fsyncFits_grownState :
    FsyncFits grownExternal "/f" grownState ⟨[byteUploads], true⟩ := by
  have hdirty : grownState.dirty "/f" = [1] := by decide
  have hcache : (grownState.localInodeCache "/f").map
      (fun inode => (inode.storageType, inode.sub)) = some (some (.re 1 1), [firstEntry]) := by
    decide
  intro inode last hinode hlast _ _ _
  rw [hinode, Option.map_some, Option.some.injEq, Prod.mk.injEq] at hcache
  obtain rfl : 1 = last := by
    rw [hdirty] at hlast
    exact Option.some.inj hlast
  have hlen : (startList inode 1).length = 2 := by
    rw [startList, hcache.2]
    rfl
  rw [hlen]
  refine ⟨.re 1 1, ⟨⟨hcache.1, by decide⟩, fun i hi hlt => ?_, fun p hp hlt => ?_,
    fun i hge hlt => ?_, fun _ s hs => Or.inr ?_⟩⟩
  · rw [hdirty, List.mem_singleton] at hi
    omega
  · have hp' : p.1 ∈ grownState.dirty "/f" := (List.of_mem_zip hp).1
    rw [hdirty, List.mem_singleton] at hp'
    omega
  · rw [hcache.2, List.length_singleton] at hge
    omega
  · rw [hcache.2] at hs
    obtain rfl : firstEntry = s := Option.some.inj hs
    exact fullEntry_firstEntry

/-- A block behind a full one. -/
theorem aligned_grownState :
    ∃ st, Runs.Reach (step grownExternal "/f")
        (fun st ev => Alone "/f" st ev ∧ Whole grownExternal "/f" st ev) noFile st ∧
      (recordAt st.db (.set "/f")).sub = [firstEntry, byteEntry [7]] ∧
      Aligned grownExternal (recordAt st.db (.set "/f")) := by
  have hput : step grownExternal "/f" noFile
      (.putFile ⟨[1, 2, 3], by decide⟩ "RE<1,1>" (fun _ => 100) [byteUploads]) = some putState := by
    have hrun : (putFile grownExternal ⟨[1, 2, 3], by decide⟩ "/f" "RE<1,1>" (fun _ => 100)
        [byteUploads]).run noFile = .ok () putState :=
      (run_putFile_eq_ok grownExternal).mpr ⟨_, put_firstEntry, rfl⟩
    exact congrArg settled hrun
  have hfits : PutFits grownExternal noFile ⟨[1, 2, 3], by decide⟩ "/f" "RE<1,1>" (fun _ => 100)
      [byteUploads] := by
    refine ⟨fun db t _ ht i up _ hi => ?_, Or.inl ⟨_, put_firstEntry⟩⟩
    obtain rfl : StorageType.re 1 1 = t := Except.ok.inj ht
    rw [putBlocks_small (by decide), List.length_singleton] at hi
    omega
  have hopen : step grownExternal "/f" putState (.openFile ⟨false, true, false⟩ fun _ => 200) =
      some reopened := step_of_isSome (by decide)
  have hwrite : step grownExternal "/f" reopened (.writeData byteNet 1048576 [7]) =
      some grownState := step_of_isSome (by decide)
  have hsync : step grownExternal "/f" grownState (.fsync ⟨[byteUploads], true⟩) =
      some (after (fsync grownExternal "/f" ⟨[byteUploads], true⟩) grownState) :=
    step_of_isSome (by decide +kernel)
  have hreach : Runs.Reach (step grownExternal "/f")
      (fun st ev => Alone "/f" st ev ∧ Whole grownExternal "/f" st ev) noFile
      (after (fsync grownExternal "/f" ⟨[byteUploads], true⟩) grownState) :=
    (((Runs.Reach.refl.tail (e := .putFile _ _ _ _) ⟨endpoints_byteUploads, hfits⟩ hput).tail
      (e := .openFile _ _) ⟨trivial, fun h => by cases h⟩ hopen).tail
      (e := .writeData _ _ _) ⟨trivial, trivial⟩ hwrite).tail
      (e := .fsync ⟨[byteUploads], true⟩) ⟨endpoints_byteUploads, fsyncFits_grownState⟩ hsync
  exact ⟨_, hreach, by decide +kernel,
    (aligned_of_whole grownExternal_lawful ⟨rfl, rfl⟩ hreach).1⟩

/-- One byte behind a gap of one block. -/
def gapEvents : List Event :=
  [.putFile emptySource "RE<1,1>" (fun _ => 100) [],
    .openFile ⟨false, true, false⟩ (fun _ => 200), .writeData byteNet 1048576 [8],
    .fsync ⟨[byteUploads], true⟩]

theorem alone_gapEvents (st : State) {ev : Event} (h : ev ∈ gapEvents) : Alone "/f" st ev := by
  simp only [gapEvents, List.mem_cons, List.not_mem_nil, or_false] at h
  rcases h with rfl | rfl | rfl | rfl
  · intro up hup
    cases hup
  · trivial
  · trivial
  · exact endpoints_byteUploads

/-- The `fsync` puts an empty entry in the gap, which is decoded to nothing. -/
theorem not_aligned_gapEvents :
    ¬ ∀ (x : External) (path : String) (st₀ st : State), x.Lawful → NoFile path st₀ →
      Runs.Reach (step x path) (fun st ev => Alone path st ev) st₀ st →
      Aligned x (recordAt st.db (.set path)) := by
  intro h
  have hany : (Runs.run (step byteExternal "/f") noFile gapEvents).any (fun st =>
      decide ((recordAt st.db (.set "/f")).sub = ["", byteEntry [8]] ∧
        (recordAt st.db (.set "/f")).storageType = some (.re 1 1))) = true := by
    decide +kernel
  obtain ⟨st, hrun, htest⟩ := (Option.any_eq_true _ _).mp hany
  obtain ⟨hsub, htype⟩ := of_decide_eq_true htest
  have hreach : Runs.Reach (step byteExternal "/f") (fun st ev => Alone "/f" st ev) noFile st :=
    Runs.run_preserves (fun s _ _ hev hs hstep => hs.tail (alone_gapEvents s hev) hstep) .refl hrun
  obtain ⟨t, ht, _, _, _, hplaces⟩ := h byteExternal "/f" noFile st byteExternal_lawful ⟨rfl, rfl⟩
    hreach 0 "" (by rw [hsub]; rfl) (by rw [hsub]; decide)
  rw [htype] at ht
  obtain rfl := Option.some.inj ht
  exact absurd hplaces (by decide)

end SDK

end Spkdfs
